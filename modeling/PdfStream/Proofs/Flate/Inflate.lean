import PdfStream.Flate.Inflate
import PdfStream.Proofs.Coder
import PdfStream.Proofs.Delimited

/-!
Reading a zlib stream from a string of bits. Scanning says what the whole string stands for. A bit
brings at most as many bytes as the longest copy has, and no bytes with the end of the stream.
-/
namespace PdfStream.Flate.Inflate

/-- All the data that a string of bits stands for; the end of the stream must be there. -/
def scan (s : Inflate) : List Bool → Option Bytes
  | [] => if s.isFinished then some [] else none
  | bit :: bits =>
    if s.isFinished then some []
    else if s.isBroken then none
    else (scan (s.readBit bit).state bits).map ((s.readBit bit).bytes ++ ·)

theorem scan_of_finished {s : Inflate} (h : s.isFinished = true) (bits : List Bool) :
    s.scan bits = some [] := by
  cases bits <;> simp [scan, h]

theorem not_finished_of_broken {s : Inflate} (h : s.isBroken = true) : s.isFinished = false := by
  unfold isBroken at h
  split at h
  next hstage => simp only [isFinished, hstage]
  next => cases h

theorem scan_of_broken {s : Inflate} (h : s.isBroken = true) (bits : List Bool) :
    s.scan bits = none := by
  cases bits <;> simp [scan, h, not_finished_of_broken h]

theorem scan_nil {s : Inflate} (h : s.isFinished = false) : s.scan [] = none := by
  simp [scan, h]

theorem scan_cons {s : Inflate} (hfinished : s.isFinished = false) (hbroken : s.isBroken = false)
    (bit : Bool) (bits : List Bool) : s.scan (bit :: bits) =
      ((s.readBit bit).state.scan bits).map ((s.readBit bit).bytes ++ ·) := by
  simp [scan, hfinished, hbroken]

/-- Bits behind the end of the stream do not show. -/
theorem isSettled_scan (s : Inflate) : IsSettled s.scan := by
  intro front
  induction front generalizing s with
  | nil =>
    intro out hout more
    rw [scan] at hout
    split at hout
    next hfinished => rw [scan_of_finished hfinished, hout]
    next => cases hout
  | cons bit front ih =>
    intro out hout more
    rw [List.cons_append]
    cases hfinished : s.isFinished with
    | true =>
      rw [scan_of_finished hfinished] at hout ⊢
      exact hout
    | false =>
      cases hbroken : s.isBroken with
      | true =>
        rw [scan_of_broken hbroken] at hout
        cases hout
      | false =>
        rw [scan_cons hfinished hbroken] at hout ⊢
        obtain ⟨rest, hrest, rfl⟩ := Option.map_eq_some_iff.1 hout
        rw [ih (s.readBit bit).state rest hrest more, Option.map_some]

/-- What was announced of a copy keeps it within the longest. -/
def IsSane (s : Inflate) : Prop :=
  match s.stage with
  | .number width (.lengthExtra base) =>
    s.got < width ∧ s.value < 2 ^ s.got ∧ base + 2 ^ width ≤ 259
  | .number _ (.distanceExtra length _) => length ≤ 258
  | .symbol _ (.distance length) => length ≤ 258
  | _ => True

/-- A step into a sane state that brings no more than a copy may have. -/
structure IsBounded (r : Step Inflate) : Prop where
  sane : r.state.IsSane
  length : r.bytes.length ≤ 258
  finished : r.bytes ≠ [] → r.state.isFinished = false

theorem isBounded_quiet {s : Inflate} (h : s.IsSane) : IsBounded (.quiet s) :=
  ⟨h, Nat.zero_le _, fun hne => absurd rfl hne⟩

theorem isBounded_fail (s : Inflate) : IsBounded s.fail :=
  ⟨trivial, Nat.zero_le _, fun hne => absurd rfl hne⟩

theorem isBounded_emit {s : Inflate} {bytes : Bytes} (hlength : bytes.length ≤ 258)
    {f : Inflate → Step Inflate}
    (hquiet : ∀ s, ∃ t, f s = .quiet t ∧ t.IsSane ∧ t.isFinished = false) :
    IsBounded ((s.emit bytes).andThen f) := by
  obtain ⟨t, ht, hsane, hfinished⟩ := hquiet (s.emit bytes).state
  have hyields : ((s.emit bytes).andThen f).Yields t (bytes ++ []) := by
    apply Step.Yields.andThen (Step.yields_write _ bytes)
    show Step.Yields (f (s.emit bytes).state) t []
    rw [ht]
    exact Step.yields_quiet t
  obtain ⟨-, hstate, hbytes⟩ := hyields
  rw [List.append_nil] at hbytes
  refine ⟨?_, ?_, ?_⟩
  · rw [hstate]
    exact hsane
  · rw [hbytes]
    exact hlength
  · intro _
    rw [hstate]
    exact hfinished

theorem length_singleton_le (b : UInt8) : [b].length ≤ 258 := by
  rw [List.length_singleton]
  decide

theorem isSane_endBlock (s : Inflate) : s.endBlock.IsSane := by
  unfold endBlock
  split <;> exact trivial

theorem isFinished_endBlock (s : Inflate) : s.endBlock.isFinished = false := by
  unfold endBlock
  split <;> rfl

theorem isBounded_copy (s : Inflate) {length : Nat} (hlength : length ≤ 258) (distance : Nat) :
    IsBounded (s.copy length distance) := by
  unfold copy
  split
  · exact isBounded_fail s
  · refine isBounded_emit ?_ fun s => ⟨s.nextLiteral, rfl, trivial, rfl⟩
    rw [lookBack, List.length_map, List.length_range]
    exact hlength

theorem isBounded_afterLengths (s : Inflate) : IsBounded s.afterLengths := by
  unfold afterLengths
  dsimp only
  split
  · exact isBounded_quiet trivial
  · split
    · exact isBounded_fail s
    · split
      · exact isBounded_quiet trivial
      · exact isBounded_fail s

theorem isBounded_readHeader (s : Inflate) (value : Nat) : IsBounded (s.readHeader value) := by
  unfold readHeader
  dsimp only
  split
  · exact isBounded_quiet trivial
  · exact isBounded_fail s

theorem isBounded_readBlockHeader (s : Inflate) (value : Nat) :
    IsBounded (s.readBlockHeader value) := by
  unfold readBlockHeader
  dsimp only
  split
  · exact isBounded_quiet trivial
  · exact isBounded_quiet trivial
  · exact isBounded_quiet trivial
  · exact isBounded_fail _

/-- A field whose last bit has come. -/
theorem isBounded_readField (s : Inflate) (field : Field) (value : Nat)
    (hlength : ∀ base, field = .lengthExtra base → base + value ≤ 258)
    (hdistance : ∀ length base, field = .distanceExtra length base → length ≤ 258) :
    IsBounded (s.readField field value) := by
  cases field with
  | zlibHeader => exact isBounded_readHeader s value
  | blockHeader => exact isBounded_readBlockHeader s value
  | storedLength skipped =>
    simp only [readField]
    split
    · exact isBounded_fail s
    · split
      · exact isBounded_quiet (isSane_endBlock s)
      · exact isBounded_quiet trivial
  | storedByte remaining =>
    simp only [readField]
    apply isBounded_emit (length_singleton_le _)
    intro s
    split
    · exact ⟨_, rfl, isSane_endBlock s, isFinished_endBlock s⟩
    · exact ⟨_, rfl, trivial, rfl⟩
  | tableSizes =>
    simp only [readField]
    split
    · exact isBounded_fail s
    · exact isBounded_quiet trivial
  | lengthCode sizes lengths =>
    simp only [readField]
    split
    · exact isBounded_quiet trivial
    · split
      · exact isBounded_afterLengths _
      · exact isBounded_fail s
  | repeated base value => exact isBounded_afterLengths _
  | lengthExtra base => exact isBounded_quiet (hlength base rfl)
  | distanceExtra length base => exact isBounded_copy s (hdistance length base rfl) _
  | checksum skipped =>
    simp only [readField]
    split
    · exact isBounded_quiet trivial
    · exact isBounded_fail s

/-- The lengths that a length symbol stands for. -/
theorem lengthRange_le {i base extra : Nat} (h : lengthRanges[i]? = some (base, extra)) :
    base + 2 ^ extra ≤ 259 := by
  have hall : ∀ range ∈ lengthRanges, range.1 + 2 ^ range.2 ≤ 259 := by decide
  exact hall _ (List.mem_of_getElem? h)

theorem isBounded_readLiteral (s : Inflate) (symbol : Nat) : IsBounded (s.readLiteral symbol) := by
  unfold readLiteral
  split
  · exact isBounded_emit (length_singleton_le _) fun s => ⟨s.nextLiteral, rfl, trivial, rfl⟩
  · split
    · exact isBounded_quiet (isSane_endBlock s)
    · split
      next => exact isBounded_fail s
      next base h =>
        have hrange := lengthRange_le h
        exact isBounded_quiet (show base ≤ 258 by omega)
      next base extra hextra h =>
        refine isBounded_quiet ⟨Nat.pos_of_ne_zero fun hzero => hextra hzero, ?_, lengthRange_le h⟩
        exact Nat.one_pos

theorem isBounded_readDistance (s : Inflate) {length : Nat} (hlength : length ≤ 258)
    (symbol : Nat) : IsBounded (s.readDistance length symbol) := by
  unfold readDistance
  split
  · exact isBounded_fail s
  · exact isBounded_copy s hlength _
  · exact isBounded_quiet hlength

theorem isBounded_readCodeLength (s : Inflate) (symbol : Nat) :
    IsBounded (s.readCodeLength symbol) := by
  unfold readCodeLength
  split
  · exact isBounded_afterLengths _
  · split
    · split
      · exact isBounded_quiet trivial
      · exact isBounded_fail s
    · split <;> exact isBounded_quiet trivial

theorem isBounded_readSymbol (s : Inflate) (purpose : Purpose) (symbol : Nat)
    (hlength : ∀ length, purpose = .distance length → length ≤ 258) :
    IsBounded (s.readSymbol purpose symbol) := by
  cases purpose with
  | codeLength => exact isBounded_readCodeLength s symbol
  | literal => exact isBounded_readLiteral s symbol
  | distance length => exact isBounded_readDistance s (hlength length rfl) symbol

theorem value_lt {value got : Nat} (h : value < 2 ^ got) (bit : Bool) :
    value + bit.toNat <<< got < 2 ^ (got + 1) := by
  rw [Nat.shiftLeft_eq, Nat.pow_succ]
  cases bit with
  | false => rw [Bool.toNat_false]; omega
  | true => rw [Bool.toNat_true]; omega

theorem isBounded_readBit {s : Inflate} (h : s.IsSane) (bit : Bool) :
    IsBounded (s.readBit bit) := by
  obtain ⟨stage, value, got, offset, lastBlock, history, checksum, literals, distances, sizes,
    lengthTree, lengths⟩ := s
  cases stage with
  | number width field =>
    simp only [readBit]
    split
    next hmore =>
      apply isBounded_quiet
      cases field with
      | lengthExtra base => exact ⟨hmore, value_lt h.2.1 bit, h.2.2⟩
      | distanceExtra length base => exact h
      | zlibHeader | blockHeader | storedLength _ | storedByte _ | tableSizes | lengthCode _ _
      | repeated _ _ | checksum _ => exact trivial
    next hmore =>
      apply isBounded_readField _ field _
      · rintro base rfl
        obtain ⟨hgot, hvalue, hbase⟩ := h
        dsimp only at hgot hvalue hbase
        have hnext := value_lt hvalue bit
        have hwidth : width = got + 1 := by omega
        rw [← hwidth] at hnext
        omega
      · rintro length base rfl
        exact h
  | symbol tree purpose =>
    simp only [readBit]
    split
    next zero one =>
      split
      next => exact isBounded_fail _
      next symbol _ =>
        apply isBounded_readSymbol _ purpose symbol
        rintro length rfl
        exact h
      next =>
        apply isBounded_quiet
        cases purpose with
        | codeLength | literal => exact trivial
        | distance length => exact h
    next => exact isBounded_fail _
  | finished => exact isBounded_quiet trivial
  | broken => exact ⟨trivial, Nat.zero_le _, fun hne => absurd rfl hne⟩

theorem isBroken_of_fault {s : Inflate} {bit : Bool} (h : (s.readBit bit).fault = none) :
    s.isBroken = false := by
  unfold isBroken
  split
  next hstage =>
    rw [readBit] at h
    simp only [hstage] at h
    cases h
  next => rfl

theorem readBit_of_finished {s : Inflate} (h : s.isFinished = true) (bit : Bool) :
    (s.readBit bit).state.isFinished = true ∧ (s.readBit bit).bytes = [] := by
  have hstage : s.stage = .finished := by
    unfold isFinished at h
    split at h
    next hstage => exact hstage
    next => cases h
  simp [readBit, hstage, isFinished]

/-- Bits that are read without a fault bring their share of the whole. -/
theorem scan_of_yields {s s' : Inflate} {bits : List Bool} {out : Bytes}
    (h : (Step.run readBit s bits).Yields s' out) (rest : List Bool) :
    s.scan (bits ++ rest) = (s'.scan rest).map (out ++ ·) := by
  induction bits generalizing s out with
  | nil =>
    obtain ⟨-, rfl, rfl⟩ := h
    simp
  | cons bit bits ih =>
    rw [Step.run_cons] at h
    have hfault : (s.readBit bit).fault = none := by
      cases hf : (s.readBit bit).fault with
      | none => rfl
      | some e =>
        have hstop := h.1
        rw [Step.andThen_of_fault hf, hf] at hstop
        cases hstop
    obtain ⟨hf, hstate, hbytes⟩ := h
    rw [Step.fault_andThen hfault] at hf
    rw [Step.state_andThen hfault] at hstate
    rw [Step.bytes_andThen hfault] at hbytes
    have hrest := ih ⟨hf, hstate, rfl⟩
    rw [List.cons_append]
    cases hfinished : s.isFinished with
    | true =>
      obtain ⟨hstill, hnone⟩ := readBit_of_finished hfinished bit
      rw [scan_of_finished hstill] at hrest
      rw [scan_of_finished hfinished, hrest, ← hbytes, hnone, List.nil_append]
    | false =>
      rw [scan_cons hfinished (isBroken_of_fault hfault), hrest, Option.map_map, ← hbytes]
      congr 1
      funext later
      exact (List.append_assoc _ _ _).symm

end PdfStream.Flate.Inflate
