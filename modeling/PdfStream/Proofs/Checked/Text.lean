import PdfStream.Proofs.Ascii85.Text
import PdfStream.Proofs.Bytes
import PdfStream.Proofs.Checked.Step
import PdfStream.Proofs.RunLength

/-!
The checked steps of the RunLength and the two text filters. Record lengths fit their headers, and
an ASCII85 group fits its five slots: four bytes are written at once, and a fifth digit closes the
group or ends the session.
-/
namespace PdfStream
namespace RunLength

def flushLiteral? (c : RunLength) : Option (Step RunLength) :=
  if c.literal = [] then some (.quiet c)
  else do
    let header ← Checked.byte (← Checked.sub c.literal.length 1)
    return ⟨{ c with literal := [] }, #[[header], c.literal], none⟩

def closeRun? (c : RunLength) : Option (Step RunLength) :=
  match c.run with
  | none => some (.quiet c)
  | some run =>
    if run.count = 1 then
      (if c.literal.length = maxRun then flushLiteral? c else some (.quiet c)) >>=
        fun r => r.andThen? fun c =>
          some (.quiet { c with literal := c.literal ++ [run.byte], run := none })
    else
      flushLiteral? c >>= fun r => r.andThen? fun c => do
        let header ← Checked.byte (← Checked.sub 257 run.count)
        return .write { c with run := none } [header, run.byte]

def addByte? (c : RunLength) (b : UInt8) : Option (Step RunLength) :=
  match c.run with
  | some run =>
    if b = run.byte ∧ run.count < maxRun then
      some (.quiet { c with run := some ⟨b, run.count + 1⟩ })
    else
      closeRun? c >>= fun r => r.andThen? fun c => some (.quiet { c with run := some ⟨b, 1⟩ })
  | none => some (.quiet { c with run := some ⟨b, 1⟩ })

def encodeBlock? (c : RunLength) (data : Bytes) : Option (Step RunLength) :=
  Step.run? addByte? c data

def endEncode? (c : RunLength) : Option (Step RunLength) :=
  (closeRun? c >>= fun r => r.andThen? flushLiteral?) >>= fun r =>
    r.andThen? fun c => some (.write c [eod])

def Expect.ofHeader? (header : UInt8) : Option Expect :=
  if header < eod then some (.literal (header.toNat + 1))
  else if header = eod then some .done
  else (Checked.sub 257 header.toNat).map .copies

/-- Copies are cut from a buffer of the longest run. -/
def readByte? (r : Reader) (b : UInt8) : Option (Step Reader) :=
  match r.expect with
  | .done => some (.quiet r)
  | .header => (Expect.ofHeader? b).map fun expect => .quiet { r with expect }
  | .literal remaining =>
    let portion := r.portion.push b
    if remaining ≤ 1 then some (.write ⟨.header, #[]⟩ portion.toList)
    else (Checked.sub remaining 1).map fun rest => .quiet ⟨.literal rest, portion⟩
  | .copies count =>
    (Checked.front count (List.replicate maxRun b)).map (.write { r with expect := .header })

def decodeBlock? (c : RunLength) (data : Bytes) : Option (Step RunLength) :=
  (Step.run? readByte? ⟨c.expect, #[]⟩ data >>= fun r => r.andThen? fun r =>
    some (.write ⟨r.expect, #[]⟩ r.portion.toList)).map
      (Step.map fun r => { c with expect := r.expect })

/-- A record may begin. -/
def IsClosed (c : RunLength) : Prop := c.literal.length ≤ maxRun ∧ c.run = none

section
variable {c : RunLength}

theorem IsClosed.bounded (h : c.IsClosed) : c.Bounded := by
  refine ⟨h.1, fun run hrun => ?_⟩
  rw [h.2] at hrun
  cases hrun

theorem IsClosed.begun (h : c.IsClosed) (b : UInt8) : Bounded { c with run := some ⟨b, 1⟩ } := by
  refine ⟨h.1, ?_⟩
  rintro _ ⟨⟩
  exact ⟨Nat.le_refl 1, Nat.le_add_left 1 127⟩

theorem inRange_flushLiteral (h : c.Bounded) :
    Step.InRange (fun s => s.literal = [] ∧ s.run = c.run) (flushLiteral? c) c.flushLiteral := by
  unfold flushLiteral? flushLiteral
  split
  next hnil => exact Step.inRange_quiet ⟨hnil, rfl⟩
  next hne =>
    have hpos : 1 ≤ c.literal.length := List.length_pos_iff.2 hne
    have hfits : c.literal.length - 1 < 256 := by
      have hle : c.literal.length ≤ 128 := h.1
      omega
    refine ⟨?_, fun _ => ⟨rfl, rfl⟩⟩
    simp [Checked.sub_eq hpos, Checked.byte_eq hfits]

theorem inRange_closeRun (h : c.Bounded) :
    Step.InRange IsClosed (closeRun? c) c.closeRun := by
  have hflush := inRange_flushLiteral h
  cases hrun : c.run with
  | none =>
    simp only [closeRun?, closeRun, hrun]
    exact Step.inRange_quiet ⟨h.1, hrun⟩
  | some run =>
    obtain ⟨hpos, hle⟩ := h.2 run hrun
    by_cases hsingle : run.count = 1
    · simp only [closeRun?, closeRun, hrun, hsingle, ↓reduceIte]
      refine Step.InRange.andThen (P := fun s => s.literal.length < maxRun) ?_ ?_
      · by_cases hfull : c.literal.length = maxRun
        · simp only [hfull, ↓reduceIte]
          refine hflush.mono fun s hs => ?_
          rw [hs.1]
          decide
        · simp only [hfull, ↓reduceIte]
          exact Step.inRange_quiet (Nat.lt_of_le_of_ne h.1 hfull)
      · intro s hs
        refine Step.inRange_quiet ⟨?_, rfl⟩
        simpa using Nat.succ_le_of_lt hs
    · simp only [closeRun?, closeRun, hrun, hsingle, ↓reduceIte]
      refine hflush.andThen fun s hs => ⟨?_, fun _ => ⟨?_, rfl⟩⟩
      · have hlong : run.count ≤ 257 := Nat.le_trans hle (by decide)
        have hfits : 257 - run.count < 256 := by omega
        simp [Checked.sub_eq hlong, Checked.byte_eq hfits]
      · simp [hs.1]

theorem inRange_addByte (h : c.Bounded) (b : UInt8) :
    Step.InRange Bounded (addByte? c b) (c.addByte b) := by
  cases hrun : c.run with
  | some run =>
    by_cases hgrows : b = run.byte ∧ run.count < maxRun
    · simp only [addByte?, addByte, hrun, if_pos hgrows]
      refine Step.inRange_quiet ⟨h.1, ?_⟩
      rintro _ ⟨⟩
      exact ⟨Nat.succ_pos _, hgrows.2⟩
    · simp only [addByte?, addByte, hrun, if_neg hgrows]
      exact (inRange_closeRun h).andThen fun s hs => Step.inRange_quiet (hs.begun b)
  | none =>
    simp only [addByte?, addByte, hrun]
    exact Step.inRange_quiet (IsClosed.begun ⟨h.1, hrun⟩ b)

theorem inRange_encodeBlock (h : c.Bounded) (data : Bytes) :
    Step.InRange Bounded (encodeBlock? c data) (c.encodeBlock data) :=
  Step.InRange.run (fun _ b hs => inRange_addByte hs b) h data

theorem inRange_endEncode (h : c.Bounded) :
    Step.InRange (fun _ => True) (endEncode? c) c.endEncode := by
  refine Step.InRange.andThen (P := fun _ => True) ?_ fun s _ => Step.inRange_write trivial _
  refine (inRange_closeRun h).andThen fun s hs => ?_
  exact (inRange_flushLiteral hs.bounded).mono fun _ _ => trivial

end

/-- What a header can announce. -/
def Expect.IsBounded : Expect → Prop
  | .header | .done => True
  | .literal remaining => 1 ≤ remaining ∧ remaining ≤ maxRun
  | .copies count => 2 ≤ count ∧ count ≤ maxRun

/-- While decoding, the counts are those of a header. -/
def ReadsBounded (c : RunLength) : Prop := c.expect.IsBounded

def Reader.IsBounded (r : Reader) : Prop := r.expect.IsBounded

theorem Expect.ofHeader?_eq (header : UInt8) : ofHeader? header = some (ofHeader header) := by
  have hle : header.toNat ≤ 257 := Nat.le_trans (Nat.le_of_lt header.toNat_lt) (by decide)
  unfold ofHeader? ofHeader
  split_ifs
  · rfl
  · rfl
  · rw [Checked.sub_eq hle, Option.map_some]

theorem Expect.isBounded_ofHeader (header : UInt8) : (ofHeader header).IsBounded := by
  have hbyte := header.toNat_lt
  have heod : eod.toNat = 128 := rfl
  unfold ofHeader
  split_ifs with hless hmark
  · rw [UInt8.lt_iff_toNat_lt, heod] at hless
    exact ⟨Nat.succ_pos _, hless⟩
  · trivial
  · rw [UInt8.lt_iff_toNat_lt, heod] at hless
    rw [← UInt8.toNat_inj, heod] at hmark
    show 2 ≤ 257 - header.toNat ∧ 257 - header.toNat ≤ 128
    omega

theorem inRange_readByte {r : Reader} (h : r.IsBounded) (b : UInt8) :
    Step.InRange Reader.IsBounded (readByte? r b) (readByte r b) := by
  obtain ⟨expect, portion⟩ := r
  cases expect with
  | done => exact Step.inRange_quiet h
  | header =>
    refine ⟨?_, fun _ => Expect.isBounded_ofHeader b⟩
    simp [readByte?, readByte, Expect.ofHeader?_eq]
  | literal remaining =>
    obtain ⟨hpos, hle⟩ := h
    simp only [readByte?, readByte]
    split
    · exact Step.inRange_write trivial _
    next hmore =>
      rw [Checked.sub_eq hpos]
      refine Step.inRange_quiet ⟨?_, Nat.le_trans (Nat.sub_le remaining 1) hle⟩
      omega
  | copies count =>
    have hfits : count ≤ (List.replicate maxRun b).length := by simpa using h.2
    refine ⟨?_, fun _ => trivial⟩
    simp [readByte?, readByte, Checked.front_eq hfits, List.take_replicate, Nat.min_eq_left h.2]

theorem inRange_decodeBlock {c : RunLength} (h : c.ReadsBounded) (data : Bytes) :
    Step.InRange ReadsBounded (decodeBlock? c data) (c.decodeBlock data) := by
  refine Step.InRange.map (P := Reader.IsBounded) ?_ fun _ => id
  have hread := Step.InRange.run (P := Reader.IsBounded) (s := ⟨c.expect, #[]⟩)
    (fun _ b hs => inRange_readByte hs b) h data
  refine hread.andThen fun r hr => ?_
  apply Step.inRange_write
  exact hr

end RunLength

namespace Ascii85

/-- The `count` low digits of `n` as characters. -/
def digits? : (count n : Nat) → Option Bytes
  | 0, _ => some []
  | count + 1, n => do
    let high ← digits? count (n / 85)
    let low ← Checked.byte (0x21 + n % 85)
    return high ++ [low]

def encodeGroup? (group : Bytes) : Option Bytes :=
  if group = [0, 0, 0, 0] then some [0x7A] else digits? 5 (Bytes.toNat group)

/-- Bytes and digits share five slots. -/
def HasAtMost (count : Nat) (c : Ascii85) : Prop := c.group.length ≤ count

def addByte? (c : Ascii85) (b : UInt8) : Option (Step Ascii85) := do
  let group ← Checked.push 5 c.group b
  if group.length = 4 then return .write { c with group := [] } (← encodeGroup? group)
  else return .quiet { c with group := group }

def encodeBlock? (c : Ascii85) (data : Bytes) : Option (Step Ascii85) :=
  (Step.run? addByte? c data).map Step.joined

def endEncode? (c : Ascii85) : Option (Step Ascii85) :=
  if c.group = [] then some (.write c eod)
  else do
    let padded := c.group ++ List.replicate (← Checked.sub 4 c.group.length) 0
    let text ← Checked.front (c.group.length + 1) (← digits? 5 (Bytes.toNat padded))
    return ⟨{ c with group := [] }, #[text, eod], none⟩

def pushDigit? (c : Ascii85) (d : UInt8) : Option (Step Ascii85) := do
  let group ← Checked.push 5 c.group d
  if group.length = 5 then
    match decodeGroup group with
    | .ok bytes => return .write { c with group := [] } bytes
    | .error e => return .stop { c with group := group } e
  else return .quiet { c with group := group }

def closeGroup? (c : Ascii85) : Option (Step Ascii85) :=
  match c.group with
  | [] => some (.quiet c)
  | [_] => some (.stop c (.decode .base85LoneDigit))
  | group => do
    let missing ← Checked.sub 5 group.length
    match decodeGroup (group ++ List.replicate missing 84) with
    | .ok bytes =>
      return .write { c with group := [] }
        (← Checked.front (← Checked.sub group.length 1) bytes)
    | .error e => return .stop c e

def readBody? (c : Ascii85) (b : UInt8) : Option (Step Ascii85) :=
  if isPdfBlank b then some (.quiet c)
  else
    let atStart := c.marker = .start
    let c := { c with marker := .body }
    if b = 0x3C ∧ atStart then some (.quiet { c with marker := .opening })
    else if b = 0x7E then some (.quiet { c with marker := .closing })
    else if b = 0x7A then
      if c.group = [] then some (.write c [0, 0, 0, 0])
      else some (.stop c (.decode .base85ZeroInGroup))
    else if 0x21 ≤ b ∧ b ≤ 0x75 then do
      let digit ← Checked.byte (← Checked.sub b.toNat 0x21)
      pushDigit? c digit
    else some (.stop c (.decode (.base85Character b)))

def readByte? (c : Ascii85) (b : UInt8) : Option (Step Ascii85) :=
  match c.marker with
  | .done => some (.quiet c)
  | .opening =>
    let c := { c with marker := .body }
    if b = 0x7E then some (.quiet c)
    else pushDigit? c (0x3C - 0x21) >>= fun r => r.andThen? (readBody? · b)
  | .closing =>
    if b = 0x3E then closeGroup? { c with marker := .done }
    else some (.stop c (.decode (.base85Close b)))
  | .start | .body => readBody? c b

def decodeBlock? (c : Ascii85) (data : Bytes) : Option (Step Ascii85) := Step.run? readByte? c data

def endDecode? (c : Ascii85) : Option (Step Ascii85) :=
  match c.marker with
  | .done => some (.quiet c)
  | .opening =>
    pushDigit? { c with marker := .done } (0x3C - 0x21) >>= fun r => r.andThen? closeGroup?
  | .start | .body | .closing => closeGroup? { c with marker := .done }

theorem digits?_eq (count n : Nat) : digits? count n = some (digits count n) := by
  induction count generalizing n with
  | zero => rfl
  | succ count ih =>
    have hfits : 0x21 + n % 85 < 256 := by omega
    simp [digits?, digits, ih, Checked.byte_eq hfits, UInt8.ofNat_add]

theorem encodeGroup?_eq (group : Bytes) : encodeGroup? group = some (encodeGroup group) := by
  unfold encodeGroup? encodeGroup
  split
  · rfl
  · exact digits?_eq 5 _

section
variable {c : Ascii85}

theorem inRange_addByte (h : c.HasAtMost 3) (b : UInt8) :
    Step.InRange (HasAtMost 3) (addByte? c b) (c.addByte b) := by
  have hslot : c.group.length < 5 := Nat.lt_of_le_of_lt h (by decide)
  simp only [addByte?, addByte, Checked.push_eq hslot, encodeGroup?_eq, Option.bind_eq_bind,
    Option.bind_some]
  by_cases hfull : (c.group ++ [b]).length = 4
  · simp only [hfull, ↓reduceIte]
    apply Step.inRange_write
    exact Nat.zero_le 3
  · simp only [hfull, ↓reduceIte]
    apply Step.inRange_quiet
    rw [List.length_append, List.length_singleton] at hfull
    show (c.group ++ [b]).length ≤ 3
    rw [List.length_append, List.length_singleton]
    exact Nat.lt_of_le_of_ne h fun hthree => hfull (congrArg (· + 1) hthree)

theorem inRange_encodeBlock (h : c.HasAtMost 3) (data : Bytes) :
    Step.InRange (HasAtMost 3) (encodeBlock? c data) (c.encodeBlock data) :=
  (Step.InRange.run (fun _ b hs => inRange_addByte hs b) h data).joined

theorem inRange_endEncode (h : c.HasAtMost 3) :
    Step.InRange (fun _ => True) (endEncode? c) c.endEncode := by
  have hroom : c.group.length ≤ 4 := Nat.le_succ_of_le h
  have hfront (n : Nat) : c.group.length + 1 ≤ (digits 5 n).length := by
    rw [length_digits]
    exact Nat.succ_le_succ hroom
  unfold endEncode? endEncode
  split
  · exact Step.inRange_write trivial _
  · refine ⟨?_, fun _ => trivial⟩
    simp [Checked.sub_eq hroom, digits?_eq, Checked.front_eq (hfront _)]

theorem inRange_pushDigit (h : c.HasAtMost 4) (d : UInt8) :
    Step.InRange (HasAtMost 4) (pushDigit? c d) (pushDigit c d) := by
  have hslot : c.group.length < 5 := Nat.lt_of_le_of_lt h (by decide)
  simp only [pushDigit?, pushDigit, Checked.push_eq hslot, Option.bind_eq_bind, Option.bind_some]
  by_cases hfull : (c.group ++ [d]).length = 5
  · simp only [hfull, ↓reduceIte]
    cases decodeGroup (c.group ++ [d]) with
    | ok bytes =>
      apply Step.inRange_write
      exact Nat.zero_le 4
    | error e => exact Step.inRange_stop _ e
  · simp only [hfull, ↓reduceIte]
    apply Step.inRange_quiet
    rw [List.length_append, List.length_singleton] at hfull
    show (c.group ++ [d]).length ≤ 4
    rw [List.length_append, List.length_singleton]
    exact Nat.lt_of_le_of_ne h fun hfour => hfull (congrArg (· + 1) hfour)

theorem length_decodeGroup {group bytes : Bytes} (h : decodeGroup group = .ok bytes) :
    bytes.length = 4 := by
  unfold decodeGroup at h
  split at h
  · cases h
    exact Bytes.length_ofNat 4 _
  · cases h

/-- Only a group of two to four digits is filled up. -/
theorem inRange_closeGroup (h : c.HasAtMost 4) :
    Step.InRange (HasAtMost 4) (closeGroup? c) (closeGroup c) := by
  obtain ⟨group, marker⟩ := c
  match group with
  | [] => exact Step.inRange_quiet h
  | [_] => exact Step.inRange_stop _ _
  | first :: second :: rest =>
    have hroom : (first :: second :: rest).length ≤ 5 := Nat.le_succ_of_le h
    have hpos : 1 ≤ (first :: second :: rest).length := Nat.succ_pos _
    simp only [closeGroup?, closeGroup, Checked.sub_eq hroom, Checked.sub_eq hpos,
      Option.bind_eq_bind, Option.bind_some]
    cases hbytes : decodeGroup (first :: second :: rest ++
        List.replicate (5 - (first :: second :: rest).length) 84) with
    | ok bytes =>
      have hfront : (first :: second :: rest).length - 1 ≤ bytes.length := by
        rw [length_decodeGroup hbytes]
        exact Nat.le_trans (Nat.sub_le _ 1) h
      simp only [Checked.front_eq hfront, Option.bind_some]
      apply Step.inRange_write
      exact Nat.zero_le 4
    | error e => exact Step.inRange_stop _ e

/-- A digit is no less than the first one. -/
theorem inRange_readBody (h : c.HasAtMost 4) (b : UInt8) :
    Step.InRange (HasAtMost 4) (readBody? c b) (readBody c b) := by
  have hbody (marker : Marker) : HasAtMost 4 { c with marker } := h
  unfold readBody? readBody
  dsimp only
  split_ifs with hblank hopens hcloses hz hempty hdigit
  · exact Step.inRange_quiet h
  · exact Step.inRange_quiet (hbody .opening)
  · exact Step.inRange_quiet (hbody .closing)
  · exact Step.inRange_write (hbody .body) _
  · exact Step.inRange_stop _ _
  · have hlow : 0x21 ≤ b.toNat := UInt8.le_iff_toNat_le.1 hdigit.1
    have hfits : b.toNat - 0x21 < 256 := Nat.lt_of_le_of_lt (Nat.sub_le _ _) b.toNat_lt
    have hsame : UInt8.ofNat (b.toNat - 0x21) = b - 0x21 := by
      rw [← UInt8.toNat_inj, UInt8.toNat_sub_of_le _ _ hdigit.1, UInt8.toNat_ofNat_of_lt' hfits]
      rfl
    simp only [Checked.sub_eq hlow, Checked.byte_eq hfits, hsame, Option.bind_eq_bind,
      Option.bind_some]
    exact inRange_pushDigit (hbody .body) _
  · exact Step.inRange_stop _ _

theorem inRange_readByte (h : c.HasAtMost 4) (b : UInt8) :
    Step.InRange (HasAtMost 4) (readByte? c b) (readByte c b) := by
  obtain ⟨group, marker⟩ := c
  cases marker with
  | done => exact Step.inRange_quiet h
  | opening =>
    have hbody : HasAtMost 4 ⟨group, .body⟩ := h
    simp only [readByte?, readByte]
    split
    · exact Step.inRange_quiet hbody
    · exact (inRange_pushDigit hbody _).andThen fun s hs => inRange_readBody hs b
  | closing =>
    have hdone : HasAtMost 4 ⟨group, .done⟩ := h
    simp only [readByte?, readByte]
    split
    · exact inRange_closeGroup hdone
    · exact Step.inRange_stop _ _
  | start | body => exact inRange_readBody h b

theorem inRange_decodeBlock (h : c.HasAtMost 4) (data : Bytes) :
    Step.InRange (HasAtMost 4) (decodeBlock? c data) (c.decodeBlock data) :=
  Step.InRange.run (fun _ b hs => inRange_readByte hs b) h data

theorem inRange_endDecode (h : c.HasAtMost 4) :
    Step.InRange (HasAtMost 4) (endDecode? c) (endDecode c) := by
  obtain ⟨group, marker⟩ := c
  have hdone : HasAtMost 4 ⟨group, .done⟩ := h
  cases marker with
  | done => exact Step.inRange_quiet h
  | opening => exact (inRange_pushDigit hdone _).andThen fun s hs => inRange_closeGroup hs
  | start | body | closing => exact inRange_closeGroup hdone

end
end Ascii85

/-- The value of a digit in either case. -/
def Hex.digitValue? (c : UInt8) : Option (Option UInt8) :=
  if 0x30 ≤ c ∧ c ≤ 0x39 then do
    return some (← Checked.byte (← Checked.sub c.toNat 0x30))
  else if 0x61 ≤ c ∧ c ≤ 0x66 then do
    return some (← Checked.byte ((← Checked.sub c.toNat 0x61) + 10))
  else if 0x41 ≤ c ∧ c ≤ 0x46 then do
    return some (← Checked.byte ((← Checked.sub c.toNat 0x41) + 10))
  else some none

theorem Hex.digitValue?_eq (c : UInt8) : digitValue? c = some (value? c) := by
  revert c
  exact forall_byte (by decide +kernel)

namespace AsciiHex

def readByte? (c : AsciiHex) (b : UInt8) : Option (Step AsciiHex) :=
  if c.finished then some (.quiet c)
  else
    (Hex.digitValue? b).map fun
      | some digit =>
        match c.high with
        | some high => .write { c with high := none } [high <<< 4 ||| digit]
        | none => .quiet { c with high := some digit }
      | none =>
        if isPdfBlank b then .quiet c
        else if b = eod then .quiet { c with finished := true }
        else .stop c (.decode (.hexCharacter b))

def decodeBlock? (c : AsciiHex) (data : Bytes) : Option (Step AsciiHex) :=
  (Step.run? readByte? c data).map Step.joined

theorem inRange_decodeBlock (c : AsciiHex) (data : Bytes) :
    Step.InRange (fun _ => True) (decodeBlock? c data) (c.decodeBlock data) := by
  refine Step.InRange.joined (Step.InRange.run (fun s b _ => ⟨?_, fun _ => trivial⟩) trivial data)
  unfold readByte? readByte
  split
  · rfl
  · rw [Hex.digitValue?_eq]
    cases Hex.value? b with
    | none => rfl
    | some digit => rfl

end AsciiHex
end PdfStream
