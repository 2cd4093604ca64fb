import PdfStream.Lzw.Decoder
import PdfStream.Predictor

/-!
Reading an LZW stream. Bits are taken in ahead, up to 64 of them; codes are decoded in groups; words
leave in pieces of at most 4096 bytes, one a call. An invalid code loses the piece that is open, and
nothing but the groups tells whether a full piece is still open. A block ends with a call that has
used up the data, even if codes are left ahead; only the next block reads on from there.
-/
namespace PdfStream.Lzw

structure Reader where
  decoder : Decoder
  /-- Bits taken in and not decoded. -/
  ahead : List Bool := []
  /-- A word that the last piece had no room for, last byte first. -/
  waiting : Bytes := []
  finished : Bool := false

/-- Codes that are decoded together: how many are still to come, and the entries at the start. -/
structure Group where
  left : Nat := 0
  known : Nat := 0

namespace Reader

def pieceLength : Nat := 4096

/-- Bits that may be ahead. -/
def aheadLength : Nat := 64

def groupLength : Nat := 6

def create (earlyChange : Bool) : Reader := { decoder := .create earlyChange }

/-- Bits still to be decoded. -/
def left (r : Reader) (data : Bytes) : Nat := r.ahead.length + 8 * data.length

/-- Takes in as many bytes as there is room for. -/
def refill (r : Reader) (data : Bytes) : Reader × Bytes :=
  let count := (aheadLength - r.ahead.length) / 8
  ({ r with ahead := r.ahead ++ (data.take count).flatMap Bits.Order.highFirst.ofByte },
    data.drop count)

theorem left_refill (r : Reader) (data : Bytes) :
    (r.refill data).1.left (r.refill data).2 = r.left data := by
  have hbits (bytes : Bytes) :
      (bytes.flatMap Bits.Order.highFirst.ofByte).length = 8 * bytes.length := by
    induction bytes with
    | nil => rfl
    | cons b bytes ih =>
      rw [List.flatMap_cons, List.length_append, ih, Bits.Order.ofByte, Bits.length_highFirst,
        List.length_cons]
      omega
  simp only [refill, left, List.length_append, hbits, List.length_take, List.length_drop]
  omega

/-- Whole codes ahead. -/
def codesAhead (r : Reader) : Nat := r.ahead.length / r.decoder.width

/-- What is taken in before the next group: after a clear code, nothing while a code is ahead. -/
def takeIn (r : Reader) (data : Bytes) : Reader × Bytes :=
  if r.decoder.previous = none ∧ r.codesAhead ≠ 0 then (r, data) else r.refill data

theorem left_takeIn (r : Reader) (data : Bytes) :
    (r.takeIn data).1.left (r.takeIn data).2 = r.left data := by
  unfold takeIn
  split
  · rfl
  · exact left_refill r data

/-- The first code, and the first one after a clear code, make a group of their own. -/
def nextGroup (r : Reader) : Group :=
  { left := min (if r.decoder.previous = none then 1 else groupLength) r.codesAhead
    known := r.decoder.count }

/-- The code in front. -/
def code (r : Reader) : Nat := Bits.ofHighFirst (r.ahead.take r.decoder.width)

/-- A group ends with a mark, with a word that it has brought itself, and where codes widen. -/
def isLast (r : Reader) (group : Group) : Bool :=
  group.left ≤ 1 || r.code = clearCode || r.code = endCode || group.known ≤ r.code ||
    r.decoder.limit ≤ r.decoder.count

/-- Reads the code in front. -/
def readCode (r : Reader) : Reader × Meaning :=
  let (decoder, meaning) := r.decoder.read r.code
  ({ r with decoder, ahead := r.ahead.drop r.decoder.width }, meaning)

theorem left_readCode {r : Reader} (h : r.codesAhead ≠ 0) (data : Bytes) :
    r.readCode.1.left data < r.left data := by
  have hwidth := r.decoder.width_pos
  have hlong : r.decoder.width ≤ r.ahead.length := by
    apply Nat.le_of_not_lt
    intro hshort
    exact h (Nat.div_eq_of_lt hshort)
  simp only [left, readCode, List.length_drop]
  omega

/-- Starts the next group if the one before is done. -/
def ready (r : Reader) (group : Group) (data : Bytes) : Reader × Group × Bytes :=
  if group.left = 0 then
    let (r, data) := r.takeIn data
    (r, r.nextGroup, data)
  else (r, group, data)

theorem left_ready (r : Reader) (group : Group) (data : Bytes) :
    (r.ready group data).1.left (r.ready group data).2.2 = r.left data := by
  unfold ready
  split
  · exact left_takeIn r data
  · rfl

theorem length_takeIn (r : Reader) (data : Bytes) : (r.takeIn data).2.length ≤ data.length := by
  unfold takeIn
  split
  · exact Nat.le_refl _
  · show (data.drop _).length ≤ data.length
    rw [List.length_drop]
    exact Nat.sub_le _ _

theorem length_ready (r : Reader) (group : Group) (data : Bytes) :
    (r.ready group data).2.2.length ≤ data.length := by
  unfold ready
  split
  · exact length_takeIn r data
  · exact Nat.le_refl _

theorem waiting_ready (r : Reader) (group : Group) (data : Bytes) :
    (r.ready group data).1.waiting = r.waiting := by
  unfold ready takeIn refill
  split
  · dsimp only
    split <;> rfl
  · rfl

end Reader

/-- What one call of a reader comes to: the piece that it brings, and the data it leaves. -/
structure Call where
  reader : Reader
  piece : Array UInt8 := #[]
  rest : Bytes
  /-- No code was invalid. -/
  isValid : Bool := true

namespace Reader

/-- Reads on with an open piece, up to a mark, to a word that the piece has no room for, to the end of
a group that fills the piece, or as long as there are whole codes. -/
def collect (r : Reader) (group : Group) (piece : Array UInt8) (data : Bytes) : Call :=
  let start := r.ready group data
  if _ : start.1.codesAhead = 0 then { reader := start.1, piece, rest := start.2.2 }
  else
    let last := start.1.isLast start.2.1
    let next := start.1.readCode
    match next.2 with
    | .invalid => { reader := next.1, rest := start.2.2, isValid := false }
    | .finish => { reader := { next.1 with finished := true }, piece, rest := start.2.2 }
    | .clear => { reader := next.1, piece, rest := start.2.2 }
    | .word reversed =>
      if pieceLength < piece.size + reversed.length then
        { reader := { next.1 with waiting := reversed }, piece, rest := start.2.2 }
      else
        let whole := piece ++ reversed.reverse
        if last ∧ whole.size = pieceLength then
          { reader := next.1, piece := whole, rest := start.2.2 }
        else
          let rest := { start.2.1 with left := if last then 0 else start.2.1.left - 1 }
          collect next.1 rest whole start.2.2
termination_by r.left data
decreasing_by
  exact Nat.lt_of_lt_of_eq (left_readCode ‹_› _) (left_ready r group data)

theorem length_collect (r : Reader) (group : Group) (piece : Array UInt8) (data : Bytes) :
    (collect r group piece data).rest.length ≤ (r.ready group data).2.2.length := by
  induction hn : r.left data using Nat.strongRecOn generalizing r group piece data with
  | ind n ih =>
    subst hn
    unfold collect
    dsimp only
    split
    next => exact Nat.le_refl _
    next hcodes =>
      have hless := Nat.lt_of_lt_of_eq (left_readCode hcodes (r.ready group data).2.2)
        (left_ready r group data)
      split
      next => exact Nat.le_refl _
      next => exact Nat.le_refl _
      next => exact Nat.le_refl _
      next =>
        split
        next => exact Nat.le_refl _
        next =>
          split
          next => exact Nat.le_refl _
          next => exact Nat.le_trans (ih _ hless _ _ _ _ rfl) (length_ready _ _ _)

/-- Without a code read, the call leaves what it began with. -/
theorem left_collect (r : Reader) (group : Group) (piece : Array UInt8) (data : Bytes) :
    (collect r group piece data).reader.left (collect r group piece data).rest < r.left data ∨
      (collect r group piece data).reader.left (collect r group piece data).rest = r.left data ∧
        (collect r group piece data).reader.waiting = r.waiting ∧
        (collect r group piece data).piece = piece := by
  induction hn : r.left data using Nat.strongRecOn generalizing r group piece data with
  | ind n ih =>
    subst hn
    have hready := left_ready r group data
    unfold collect
    dsimp only
    split
    next => exact .inr ⟨hready, waiting_ready r group data, rfl⟩
    next hcodes =>
      left
      have hless := Nat.lt_of_lt_of_eq (left_readCode hcodes (r.ready group data).2.2) hready
      split
      next => exact hless
      next => exact hless
      next => exact hless
      next =>
        split
        next => exact hless
        next =>
          split
          next => exact hless
          next =>
            rcases ih _ hless _ _ _ _ rfl with hlt | ⟨heq, -⟩
            · exact Nat.lt_trans hlt hless
            · exact Nat.lt_of_le_of_lt (Nat.le_of_eq heq) hless

/-- One call, which begins with the word that was waiting. -/
def call (r : Reader) (data : Bytes) : Call :=
  collect { r with waiting := [] } {} r.waiting.reverse.toArray data

end Reader

/-- Whether a call is the last for the data it was given: with the end code; or if it has brought
nothing; or if it has used up the data and not filled its piece. -/
def Call.Ends (c : Call) (data : Bytes) : Prop :=
  c.reader.finished ∨ (c.rest.length = data.length ∧ c.piece.size = 0) ∨
    (c.rest = [] ∧ c.piece.size < Reader.pieceLength)

instance (c : Call) (data : Bytes) : Decidable (c.Ends data) := by
  unfold Call.Ends
  infer_instance

namespace Reader

/-- What calls still have to do: bits to decode, data to take in, and a word that waits. -/
def todo (r : Reader) (data : Bytes) : Nat :=
  2 * r.left data + data.length + min 1 r.waiting.length

theorem todo_call {r : Reader} {data : Bytes} (h : ¬(r.call data).Ends data) :
    (r.call data).reader.todo (r.call data).rest < r.todo data := by
  have hfew : (r.call data).rest.length ≤ data.length :=
    Nat.le_trans (length_collect _ _ _ _) (length_ready _ _ _)
  unfold todo
  rcases left_collect { r with waiting := [] } {} r.waiting.reverse.toArray data with
    hlt | ⟨heq, hwaiting, hpiece⟩
  · have hleft : (r.call data).reader.left (r.call data).rest < r.left data := hlt
    omega
  · have hleft : (r.call data).reader.left (r.call data).rest = r.left data := heq
    have hnone : (r.call data).reader.waiting = [] := hwaiting
    have hsize : (r.call data).piece.size = r.waiting.length := by
      rw [call, hpiece]
      simp
    have hsome : ¬((r.call data).rest.length = data.length ∧ (r.call data).piece.size = 0) :=
      fun hboth => h (.inr (.inl hboth))
    rw [hleft, hnone, List.length_nil]
    omega

/-- Calls the reader until a block is done. A full piece may not be the last, and what a call that has
brought nothing leaves of the data is lost. -/
def feed (r : Reader) (data : Bytes) (p : Option Predictor) : Step (Reader × Option Predictor) :=
  let c := r.call data
  if c.isValid then
    let out := (Predictor.pass p c.piece.toList).map fun p => (c.reader, p)
    if _ : c.Ends data then out
    else out.andThen fun s => feed c.reader c.rest s.2
  else .stop (c.reader, p) (.decode .lzwCode)
termination_by r.todo data
decreasing_by exact todo_call ‹_›

end Reader
end PdfStream.Lzw
