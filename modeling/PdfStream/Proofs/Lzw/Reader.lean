import PdfStream.Proofs.Lzw.Calm
import PdfStream.Proofs.Predictor

/-!
What a reader makes of its data. A call passes some of the codes in front of the reader and tells by
the last of them where it stops; nothing that it passes is lost. If no clear code follows another, a
block leaves no data behind, and from a calm stream the last call gets to the end code.
-/
namespace PdfStream
namespace Lzw
open Reader (pieceLength aheadLength)

namespace Reader

/-- The bits of the data, high bit first. -/
abbrev bitsOf (data : Bytes) : List Bool := Bits.ofBytes .highFirst data

theorem bitsOf_append (xs ys : Bytes) : bitsOf (xs ++ ys) = bitsOf xs ++ bitsOf ys :=
  Bits.ofBytes_append .highFirst xs ys

theorem codesAhead_eq_zero_iff (r : Reader) :
    r.codesAhead = 0 ↔ r.ahead.length < r.decoder.width := by
  rw [codesAhead, Nat.div_eq_zero_iff]
  have := r.decoder.width_pos
  omega

/-- A reader that is not at the end, between two calls. -/
structure IsIdle (r : Reader) : Prop where
  sane : r.decoder.IsSane
  words : r.decoder.HasShortWords
  /-- There is room for another byte. -/
  ahead : r.ahead.length + 9 ≤ aheadLength
  finished : r.finished = false

theorem isIdle_create (early : Bool) : (create early).IsIdle :=
  ⟨Decoder.isSane_start _, Decoder.hasShortWords_start _, (by decide : 0 + 9 ≤ aheadLength), rfl⟩

/-- A reader between two codes, inside a group. -/
structure IsReading (r : Reader) (group : Group) : Prop where
  sane : r.decoder.IsSane
  words : r.decoder.HasShortWords
  ahead : r.ahead.length ≤ aheadLength
  waiting : r.waiting = []
  finished : r.finished = false
  left : group.left ≤ r.codesAhead

theorem IsIdle.isReading {r : Reader} (h : r.IsIdle) : IsReading { r with waiting := [] } {} where
  sane := h.sane
  words := h.words
  ahead := Nat.le_trans (Nat.le_add_right _ 9) h.ahead
  waiting := rfl
  finished := h.finished
  left := Nat.zero_le _

theorem takeIn_keeps {r : Reader} (h : r.ahead.length ≤ aheadLength) (data : Bytes) :
    (r.takeIn data).1 = { r with ahead := (r.takeIn data).1.ahead } ∧
      (r.takeIn data).1.ahead ++ bitsOf (r.takeIn data).2 = r.ahead ++ bitsOf data ∧
      (r.takeIn data).1.ahead.length ≤ aheadLength := by
  unfold takeIn
  split
  · exact ⟨rfl, rfl, h⟩
  · refine ⟨rfl, ?_, ?_⟩
    · simp only [refill]
      rw [List.append_assoc]
      congr 1
      rw [← Bits.ofBytes, ← Bits.ofBytes_append, List.take_append_drop]
    · simp only [refill]
      rw [List.length_append, ← Bits.ofBytes, Bits.length_ofBytes, List.length_take]
      omega

/-- If no code is ahead after taking in, there was no more to take in. -/
theorem takeIn_exhausts {r : Reader} (h : r.decoder.IsSane) {data : Bytes}
    (hcodes : (r.takeIn data).1.codesAhead = 0) : (r.takeIn data).2 = [] := by
  have hwidth : r.decoder.width ≤ 12 := h.width_le
  unfold takeIn at hcodes ⊢
  split at hcodes
  next hahead => exact absurd hcodes hahead.2
  next hahead =>
    rw [if_neg hahead]
    have hshort := (codesAhead_eq_zero_iff _).1 hcodes
    simp only [refill, aheadLength] at hshort ⊢
    rw [List.length_append, ← Bits.ofBytes, Bits.length_ofBytes, List.length_take] at hshort
    apply List.drop_of_length_le
    omega

theorem ready_spec {r : Reader} {group : Group} (h : r.IsReading group) (data : Bytes) :
    (r.ready group data).1.IsReading (r.ready group data).2.1 ∧
      (r.ready group data).1.decoder = r.decoder ∧
      (r.ready group data).1.ahead ++ bitsOf (r.ready group data).2.2 = r.ahead ++ bitsOf data ∧
      ((r.ready group data).1.codesAhead = 0 → (r.ready group data).2.2 = []) := by
  unfold ready
  split
  next hleft =>
    obtain ⟨hsame, hbits, hahead⟩ := takeIn_keeps h.ahead data
    have hdecoder : (r.takeIn data).1.decoder = r.decoder := by rw [hsame]
    have hwaiting : (r.takeIn data).1.waiting = r.waiting := by rw [hsame]
    have hfinished : (r.takeIn data).1.finished = r.finished := by rw [hsame]
    exact ⟨⟨hdecoder ▸ h.sane, hdecoder ▸ h.words, hahead, hwaiting.trans h.waiting,
      hfinished.trans h.finished, Nat.min_le_right _ _⟩, hdecoder, hbits, takeIn_exhausts h.sane⟩
  next hleft =>
    refine ⟨h, rfl, rfl, fun hcodes => absurd ?_ hleft⟩
    have hle := h.left
    dsimp only at hcodes
    omega

theorem codesAhead_readCode {r : Reader} {group : Group} (hleft : group.left ≤ r.codesAhead)
    (hlast : r.isLast group = false) : group.left - 1 ≤ r.readCode.1.codesAhead := by
  simp only [isLast, Bool.or_eq_false_iff, decide_eq_false_iff_not] at hlast
  obtain ⟨⟨⟨⟨-, hclear⟩, -⟩, -⟩, hlimit⟩ := hlast
  have hwidth : r.readCode.1.decoder.width = r.decoder.width :=
    Decoder.width_read hclear hlimit
  have hpos := r.decoder.width_pos
  have hahead : r.readCode.1.ahead.length = r.ahead.length - r.decoder.width :=
    List.length_drop
  have hcodes := Nat.sub_mul_div r.ahead.length r.decoder.width 1
  unfold codesAhead at hleft ⊢
  rw [Nat.mul_one] at hcodes
  rw [hwidth, hahead, hcodes]
  omega

theorem isReading_readCode {r : Reader} {group : Group} (h : r.IsReading group) :
    r.readCode.1.IsReading { group with left := if r.isLast group then 0 else group.left - 1 } := by
  refine ⟨h.sane.read r.code, (h.words.read r.code).1, ?_, h.waiting, h.finished, ?_⟩
  · show (r.ahead.drop _).length ≤ aheadLength
    rw [List.length_drop]
    exact Nat.le_trans (Nat.sub_le _ _) h.ahead
  · dsimp only
    split
    next => exact Nat.zero_le _
    next hlast => exact codesAhead_readCode h.left (by simpa using hlast)

/-- A reader with no code ahead has taken in all that there is. -/
theorem isIdle_of_short {r : Reader} {group : Group} (h : r.IsReading group)
    (hcodes : r.codesAhead = 0) : r.IsIdle := by
  refine ⟨h.sane, h.words, ?_, h.finished⟩
  have hwidth : r.decoder.width ≤ 12 := h.sane.width_le
  have hshort := (codesAhead_eq_zero_iff r).1 hcodes
  have hahead : aheadLength = 64 := rfl
  omega

theorem isIdle_readCode {r : Reader} {group : Group} (h : r.IsReading group)
    (hcodes : r.codesAhead ≠ 0) : r.readCode.1.IsIdle := by
  have hnext := isReading_readCode h
  refine ⟨hnext.sane, hnext.words, ?_, h.finished⟩
  have hnine := h.sane.nine_le
  have hahead := h.ahead
  have hlong := mt (codesAhead_eq_zero_iff r).2 hcodes
  show (r.ahead.drop r.decoder.width).length + 9 ≤ aheadLength
  rw [List.length_drop]
  omega

/-- The codes in front of a reader, if `bits` come after its data. -/
def front (r : Reader) (data : Bytes) (bits : List Bool) : List Code :=
  r.decoder.codes (r.ahead ++ bitsOf data ++ bits)

theorem front_nil (r : Reader) (bits : List Bool) :
    r.front [] bits = r.decoder.codes (r.ahead ++ bits) := by
  have hnil : bitsOf [] = [] := rfl
  rw [front, hnil, List.append_nil]

theorem front_append (r : Reader) (data rest : Bytes) (bits : List Bool) :
    r.front (data ++ rest) bits = r.front data (bitsOf rest ++ bits) := by
  rw [front, front, bitsOf_append]
  simp

theorem front_of_short {r : Reader} (h : r.codesAhead = 0) : r.front [] [] = [] := by
  rw [front_nil, List.append_nil]
  exact Decoder.codes_of_short ((codesAhead_eq_zero_iff r).1 h)

/-- The code in front is the first. -/
theorem front_readCode {r : Reader} (h : r.codesAhead ≠ 0) (data : Bytes) (bits : List Bool) :
    r.front data bits = ⟨r.decoder.width, r.readCode.2⟩ ::
      if r.readCode.2.goesOn then r.readCode.1.front data bits else [] := by
  have hlong : r.decoder.width ≤ r.ahead.length := by
    have hnot := mt (codesAhead_eq_zero_iff r).2 h
    omega
  rw [front, List.append_assoc, Decoder.codes_append hlong, ← List.append_assoc]
  rfl

end Reader

/-- The call has no fault and is not at the end; it brings `piece` and leaves a word waiting. -/
structure Call.Stops (c : Call) (piece waiting : Bytes) : Prop where
  isValid : c.isValid = true
  idle : c.reader.IsIdle
  piece : c.piece.toList = piece
  waiting : c.reader.waiting = waiting

/-- How a call comes through the codes in front of it with `piece` open, and leaves the codes
`later`: it passes words as long as the piece has room. -/
inductive Passes (c : Call) (later : List Code) : Bytes → List Code → Prop
  /-- There is no whole code. -/
  | short {piece : Bytes} (stops : c.Stops piece []) (codes : c.reader.codesAhead = 0)
      (rest : c.rest = []) : Passes c later piece later
  | full {piece : Bytes} (stops : c.Stops piece []) (size : piece.length = pieceLength)
      (previous : c.reader.decoder.previous ≠ none) : Passes c later piece later
  | clear {piece : Bytes} {width : Nat} (stops : c.Stops piece []) :
      Passes c later piece (⟨width, .clear⟩ :: later)
  /-- The piece has no room. -/
  | beyond {piece : Bytes} {width : Nat} {reversed : Bytes} (stops : c.Stops piece reversed)
      (size : pieceLength < piece.length + reversed.length)
      (previous : c.reader.decoder.previous ≠ none) :
      Passes c later piece (⟨width, .word reversed⟩ :: later)
  | finish {piece : Bytes} {width : Nat} (isValid : c.isValid = true)
      (finished : c.reader.finished = true) (same : c.piece.toList = piece) :
      Passes c later piece [⟨width, .finish⟩]
  | invalid {piece : Bytes} {width : Nat} (isValid : c.isValid = false) :
      Passes c later piece [⟨width, .invalid⟩]
  | word {piece : Bytes} {width : Nat} {reversed : Bytes} {codes : List Code}
      (size : piece.length + reversed.length ≤ pieceLength)
      (passes : Passes c later (piece ++ reversed.reverse) codes) :
      Passes c later piece (⟨width, .word reversed⟩ :: codes)

namespace Reader

/-- By induction on the bits left: each code that is read leaves fewer. -/
theorem collect_passes {r : Reader} {group : Group} (h : r.IsReading group)
    (piece : Array UInt8) (data : Bytes) (bits : List Bool) :
    Passes (collect r group piece data)
      ((collect r group piece data).reader.front (collect r group piece data).rest bits)
      piece.toList (r.front data bits) := by
  induction hn : r.left data using Nat.strongRecOn generalizing r group piece data with
  | ind n ih =>
    subst hn
    obtain ⟨hready, hdecoder, hbits, hexhausted⟩ := ready_spec h data
    have hfront : r.front data bits =
        (r.ready group data).1.front (r.ready group data).2.2 bits := by
      rw [front, front, hdecoder, hbits]
    have hleft := left_ready r group data
    rw [hfront]
    unfold collect
    generalize r.ready group data = start at *
    obtain ⟨r', group', data'⟩ := start
    dsimp only at *
    split
    next hcodes =>
      exact .short ⟨rfl, isIdle_of_short hready hcodes, rfl, hready.waiting⟩ hcodes
        (hexhausted hcodes)
    next hcodes =>
      have hnext := isReading_readCode hready
      have hidle := isIdle_readCode hready hcodes
      have hless : r'.readCode.1.left data' < r.left data :=
        Nat.lt_of_lt_of_eq (left_readCode hcodes data') hleft
      rw [front_readCode hcodes]
      split
      next hmeaning =>
        rw [hmeaning]
        exact .invalid rfl
      next hmeaning =>
        rw [hmeaning]
        exact .finish rfl rfl rfl
      next hmeaning =>
        rw [hmeaning]
        exact .clear ⟨rfl, hidle, rfl, hnext.waiting⟩
      next reversed hmeaning =>
        have hprevious := r'.decoder.previous_read r'.code reversed hmeaning
        rw [hmeaning, Meaning.goesOn, if_pos rfl]
        split
        next hover =>
          exact .beyond ⟨rfl, ⟨hidle.sane, hidle.words, hidle.ahead, hidle.finished⟩, rfl, rfl⟩ hover
            hprevious
        next hroom =>
          refine .word (Nat.le_of_not_lt hroom) ?_
          have hwhole : (piece ++ reversed.reverse).toList = piece.toList ++ reversed.reverse := by
            simp
          rw [← hwhole]
          split
          next hfull =>
            exact .full ⟨rfl, hidle, rfl, hnext.waiting⟩ hfull.2 hprevious
          next => exact ih _ hless hnext (piece ++ reversed.reverse) data' rfl

theorem call_passes {r : Reader} (h : r.IsIdle) (data : Bytes) (bits : List Bool) :
    Passes (r.call data) ((r.call data).reader.front (r.call data).rest bits) r.waiting.reverse
      (r.front data bits) :=
  collect_passes h.isReading r.waiting.reverse.toArray data bits

end Reader

/-- What a call and the codes behind it come to. -/
def Call.comesTo (c : Call) (later : Option Bytes) : Option Bytes :=
  if c.isValid = false then none
  else if c.reader.finished then some c.piece.toList
  else later.map (c.piece.toList ++ c.reader.waiting.reverse ++ ·)

theorem Call.Stops.comesTo {c : Call} {piece waiting : Bytes} (h : c.Stops piece waiting)
    (later : Option Bytes) : c.comesTo later = later.map (piece ++ waiting.reverse ++ ·) := by
  rw [Call.comesTo, h.isValid, h.idle.finished, h.piece, h.waiting]
  rfl

namespace Passes
variable {c : Call} {later codes : List Code} {piece : Bytes}

/-- Nothing is lost between the calls. -/
theorem spell_eq (h : Passes c later piece codes) :
    (spell codes).map (piece ++ ·) = c.comesTo (spell later) := by
  induction h with
  | short stops | full stops =>
    rw [stops.comesTo, List.reverse_nil, List.append_nil]
  | clear stops =>
    rw [stops.comesTo, spell, List.reverse_nil, List.append_nil]
  | beyond stops =>
    rw [stops.comesTo, spell, Option.map_map]
    congr 1
    funext more
    exact (List.append_assoc _ _ _).symm
  | finish isValid finished same =>
    rw [Call.comesTo, isValid, finished, ← same, spell, Option.map_some, List.append_nil]
    rfl
  | invalid isValid =>
    rw [Call.comesTo, if_pos isValid]
    rfl
  | word size passes ih =>
    rw [← ih, spell, Option.map_map]
    congr 1
    funext more
    exact (List.append_assoc _ _ _).symm

section
variable (h : Passes c later piece codes) (hvalid : c.isValid = true)
include h hvalid

theorem piece_eq : ∃ more, c.piece.toList = piece ++ more := by
  induction h with
  | short stops | full stops | clear stops | beyond stops =>
    exact ⟨[], by rw [stops.piece, List.append_nil]⟩
  | finish isValid finished same => exact ⟨[], by rw [same, List.append_nil]⟩
  | invalid isValid => cases hvalid.symm.trans isValid
  | word size passes ih =>
    obtain ⟨more, hmore⟩ := ih
    exact ⟨_, hmore.trans (List.append_assoc _ _ _)⟩

variable (hgoes : c.reader.finished = false)
include hgoes

theorem isIdle : c.reader.IsIdle := by
  induction h with
  | short stops | full stops | clear stops | beyond stops => exact stops.idle
  | finish isValid finished same => cases finished.symm.trans hgoes
  | invalid isValid => cases hvalid.symm.trans isValid
  | word size passes ih => exact ih

theorem spell_ne_none : spell later ≠ none ↔ spell codes ≠ none := by
  have hspell := h.spell_eq
  rw [Call.comesTo, if_neg (by rw [hvalid]; decide), if_neg (by rw [hgoes]; decide)] at hspell
  have hsome := congrArg Option.isSome hspell
  rw [Option.isSome_map, Option.isSome_map] at hsome
  rw [← Option.isSome_iff_ne_none, ← Option.isSome_iff_ne_none, hsome]

/-- What a call leaves of codes that are apart is apart, and behind a clear code no other. -/
theorem clearsApart (hapart : ClearsApart codes) :
    ClearsApart later ∧ (c.reader.decoder.previous = none → c.reader.codesAhead ≠ 0 →
      ∀ code ∈ later.head?, code.meaning ≠ .clear) := by
  induction h with
  | short stops codes rest => exact ⟨hapart, fun _ hcodes => absurd codes hcodes⟩
  | full stops size previous => exact ⟨hapart, fun hnone => absurd hnone previous⟩
  | clear stops =>
    refine ⟨List.IsChain.tail hapart, fun _ _ code hcode hclear => ?_⟩
    cases later with
    | nil => cases hcode
    | cons next later =>
      cases hcode
      exact (List.isChain_cons_cons.1 hapart).1 ⟨rfl, hclear⟩
  | beyond stops size previous =>
    exact ⟨List.IsChain.tail hapart, fun hnone => absurd hnone previous⟩
  | finish isValid finished same => cases finished.symm.trans hgoes
  | invalid isValid => cases hvalid.symm.trans isValid
  | word size passes ih => exact ih (List.IsChain.tail hapart)

/-- A call that stops before its piece is full has used up all codes, or behind it one call takes all
that is left. -/
theorem settles {total : Nat} (htotal : piece.length ≤ total) (hsettles : Settles total codes) :
    (∃ total', c.reader.waiting.length ≤ total' ∧ Settles total' later) ∧
      (c.piece.size < pieceLength → c.reader.codesAhead = 0 ∨
        (bitLength later ≤ aheadLength → FitPiece c.reader.waiting.length later)) := by
  induction h generalizing total with
  | short stops codes rest =>
    refine ⟨⟨total, ?_, hsettles⟩, fun _ => .inl codes⟩
    rw [stops.waiting]
    exact Nat.zero_le _
  | full stops size previous =>
    refine ⟨⟨total, ?_, hsettles⟩, fun hless => ?_⟩
    · rw [stops.waiting]
      exact Nat.zero_le _
    · rw [← Array.length_toList, stops.piece, size] at hless
      exact absurd hless (Nat.lt_irrefl _)
  | clear stops =>
    obtain ⟨hfit, hlater⟩ := hsettles
    rw [stops.waiting]
    exact ⟨⟨total, Nat.zero_le _, hlater⟩, fun _ => .inr hfit⟩
  | beyond stops size previous =>
    obtain ⟨hfit, hlater⟩ := hsettles
    rw [stops.waiting]
    exact ⟨⟨_, Nat.le_add_left _ _, hlater⟩, fun _ => .inr (hfit (by omega))⟩
  | finish isValid finished same => cases finished.symm.trans hgoes
  | invalid isValid => cases hvalid.symm.trans isValid
  | word size passes ih =>
    refine ih ?_ hsettles.2
    rw [List.length_append, List.length_reverse]
    omega

/-- A call that brings nothing has nothing in front of it, or a clear code. -/
theorem rest_eq_nil (hwords : ∀ width word, ⟨width, .word word⟩ ∈ codes →
      word ≠ [] ∧ word.length ≤ pieceLength) (hpiece : c.piece.toList = []) :
    c.rest = [] ∨ ∃ width, codes.head? = some ⟨width, .clear⟩ := by
  cases h with
  | short stops codes rest => exact .inl rest
  | full stops size previous =>
    rw [← stops.piece, hpiece] at size
    cases size
  | clear stops => exact .inr ⟨_, rfl⟩
  | beyond stops size previous =>
    rw [← stops.piece, hpiece, List.length_nil, Nat.zero_add] at size
    exact absurd (hwords _ _ (List.mem_cons_self ..)).2 (Nat.not_le_of_lt size)
  | finish isValid finished same => cases finished.symm.trans hgoes
  | invalid isValid => cases hvalid.symm.trans isValid
  | word size passes =>
    obtain ⟨more, hmore⟩ := passes.piece_eq hvalid
    rw [hpiece, eq_comm, List.append_eq_nil_iff, List.append_eq_nil_iff, List.reverse_eq_nil_iff]
      at hmore
    exact absurd hmore.1.2 (hwords _ _ (List.mem_cons_self ..)).1

end

/-- From codes that fit in a piece, a call gets to the end code or fills its piece before. -/
theorem reaches (h : Passes c later piece codes) (hfit : FitPiece piece.length codes)
    (hends : spell codes ≠ none) (hshort : c.reader.codesAhead = 0 → later = []) :
    c.isValid = true ∧ (c.reader.finished = false →
      c.piece.size = pieceLength ∧ c.reader.waiting = [] ∧ FitPiece 0 later) := by
  induction h with
  | short stops codes rest =>
    rw [hshort codes] at hends
    exact absurd rfl hends
  | full stops size previous =>
    refine ⟨stops.isValid, fun _ => ⟨?_, stops.waiting, hfit.mono (Nat.zero_le _)⟩⟩
    rw [← Array.length_toList, stops.piece, size]
  | clear stops => exact hfit.elim
  | beyond stops size previous => exact absurd hfit.1 (Nat.not_le_of_lt size)
  | finish isValid finished same =>
    exact ⟨isValid, fun hgoes => Bool.noConfusion (finished.symm.trans hgoes)⟩
  | invalid isValid => exact absurd rfl hends
  | word size passes ih =>
    refine ih ?_ (fun hnone => hends (by rw [spell, hnone, Option.map_none]))
    rw [List.length_append, List.length_reverse]
    exact hfit.2

end Passes
end Lzw
end PdfStream
