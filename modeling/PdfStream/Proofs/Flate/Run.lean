import Mathlib.Tactic.Ring
import PdfStream.Proofs.Flate.Canonical
import PdfStream.Proofs.Flate.Format
import PdfStream.Proofs.Flate.Inflate

/-!
Numbers and symbols read bit by bit. Whole ones take the reader on by their bits to what it makes of
them; in the middle of one no stream ends.
-/
namespace PdfStream.Flate
namespace Inflate

/-- The reader so many bits later. -/
def moved (s : Inflate) (count : Nat) : Inflate := { s with offset := (s.offset + count) % 8 }

/-- The reader with more data written. -/
def took (s : Inflate) (data : Bytes) : Inflate :=
  { s with history := s.history ++ data, checksum := s.checksum.add data }

/-- The reader in the middle of a number or a symbol. -/
def amid (s : Inflate) (stage : Stage) (value got : Nat) : Inflate := { s with stage, value, got }

theorem moved_moved (s : Inflate) (m n : Nat) : (s.moved m).moved n = s.moved (m + n) := by
  have hoffset : ((s.offset + m) % 8 + n) % 8 = (s.offset + (m + n)) % 8 := by
    rw [Nat.mod_add_mod, Nat.add_assoc]
  simp only [moved, hoffset]

theorem took_took (s : Inflate) (xs ys : Bytes) : (s.took xs).took ys = s.took (xs ++ ys) := by
  have hhistory : s.history ++ xs ++ ys = s.history ++ (xs ++ ys) := by
    apply Array.ext'
    simp
  simp only [took, Adler.add_append, hhistory]

theorem readBit_number_more (s : Inflate) {width value got : Nat} (field : Field)
    (h : got + 1 < width) (bit : Bool) :
    (s.amid (.number width field) value got).readBit bit =
      .quiet ((s.moved 1).amid (.number width field) (value + bit.toNat <<< got) (got + 1)) :=
  if_pos h

theorem readBit_number_last (s : Inflate) {width value got : Nat} (field : Field)
    (h : ¬got + 1 < width) (bit : Bool) :
    (s.amid (.number width field) value got).readBit bit =
      ((s.moved 1).amid (.number width field) value got).readField field
        (value + bit.toNat <<< got) :=
  if_neg h

/-- The rest of a number. -/
theorem run_number_amid (s : Inflate) (field : Field) {bits : List Bool} (hne : bits ≠ [])
    {width : Nat} (value got : Nat) (h : got + bits.length = width) :
    ∃ value' got', Step.run readBit (s.amid (.number width field) value got) bits =
      ((s.moved bits.length).amid (.number width field) value' got').readField field
        (value + Bits.ofLowFirst bits <<< got) := by
  induction bits generalizing s value got with
  | nil => exact absurd rfl hne
  | cons bit bits ih =>
    rw [List.length_cons] at h
    by_cases hnil : bits = []
    · subst hnil
      refine ⟨value, got, ?_⟩
      rw [Step.run_singleton, readBit_number_last s field (by simpa using Nat.le_of_eq h.symm)]
      simp [Bits.ofLowFirst]
    · have hpositive := List.length_pos_iff.2 hnil
      obtain ⟨value', got', hrest⟩ :=
        ih (s.moved 1) hnil (value + bit.toNat <<< got) (got + 1) (by omega)
      have hmoved : (s.moved 1).moved bits.length = s.moved (bit :: bits).length := by
        rw [moved_moved, List.length_cons, Nat.add_comm]
      have hvalue : value + bit.toNat <<< got + Bits.ofLowFirst bits <<< (got + 1) =
          value + Bits.ofLowFirst (bit :: bits) <<< got := by
        rw [Bits.ofLowFirst_cons, Nat.shiftLeft_eq, Nat.shiftLeft_eq, Nat.shiftLeft_eq, Nat.add_mul,
          Nat.pow_succ]
        ring
      refine ⟨value', got', ?_⟩
      rw [Step.run_cons, readBit_number_more s field (by omega), Step.quiet_andThen, hrest, hmoved,
        hvalue]

theorem run_number (s : Inflate) (field : Field) {bits : List Bool} (hne : bits ≠ []) :
    ∃ value got, Step.run readBit (s.goto (.number bits.length field)) bits =
      ((s.moved bits.length).amid (.number bits.length field) value got).readField field
        (Bits.ofLowFirst bits) := by
  obtain ⟨value, got, hrun⟩ := run_number_amid s field hne 0 0 (Nat.zero_add bits.length)
  rw [Nat.shiftLeft_zero, Nat.zero_add] at hrun
  exact ⟨value, got, hrun⟩

theorem run_lowFirst (s : Inflate) (field : Field) {width n : Nat} (hwidth : width ≠ 0)
    (h : n < 2 ^ width) :
    ∃ value got, Step.run readBit (s.goto (.number width field)) (Bits.lowFirst width n) =
      ((s.moved width).amid (.number width field) value got).readField field n := by
  have hlength := Bits.length_lowFirst width n
  have hne : Bits.lowFirst width n ≠ [] := by
    rw [← List.length_pos_iff, hlength]
    exact Nat.pos_of_ne_zero hwidth
  have hrun := run_number s field hne
  rwa [hlength, Bits.ofLowFirst_lowFirst h] at hrun

section
variable (s : Inflate) (purpose : Purpose) {zero one : Huffman} {bit : Bool}

theorem readBit_leaf {symbol : Nat} (h : (if bit then one else zero) = .leaf symbol) :
    (s.goto (.symbol (.node zero one) purpose)).readBit bit =
      ((s.moved 1).amid (.symbol (.node zero one) purpose) 0 0).readSymbol purpose symbol := by
  simp only [readBit, goto, h]
  rfl

theorem readBit_node {zero' one' : Huffman} (h : (if bit then one else zero) = .node zero' one') :
    (s.goto (.symbol (.node zero one) purpose)).readBit bit =
      .quiet ((s.moved 1).goto (.symbol (.node zero' one') purpose)) := by
  simp only [readBit, goto, h]
  rfl

end

theorem run_symbol (s : Inflate) (purpose : Purpose) {tree : Huffman} {word : List Bool}
    {symbol : Nat} (h : tree.follow word = some symbol) (hne : word ≠ []) :
    ∃ stage, Step.run readBit (s.goto (.symbol tree purpose)) word =
      ((s.moved word.length).amid stage 0 0).readSymbol purpose symbol := by
  induction word generalizing s tree with
  | nil => exact absurd rfl hne
  | cons bit word ih =>
    cases tree with
    | missing => cases h
    | leaf symbol' => cases h
    | node zero one =>
      rw [Huffman.follow] at h
      cases hnext : if bit then one else zero with
      | missing =>
        rw [hnext] at h
        cases word <;> cases h
      | leaf symbol' =>
        rw [hnext] at h
        cases word with
        | nil =>
          cases h
          refine ⟨.symbol (.node zero one) purpose, ?_⟩
          rw [Step.run_singleton, readBit_leaf s purpose hnext]
          rfl
        | cons => cases h
      | node zero' one' =>
        rw [hnext] at h
        have hmore : word ≠ [] := by
          rintro rfl
          cases h
        obtain ⟨stage, hrest⟩ := ih (s.moved 1) h hmore
        have hmoved : (s.moved 1).moved word.length = s.moved (bit :: word).length := by
          rw [moved_moved, List.length_cons, Nat.add_comm]
        refine ⟨stage, ?_⟩
        rw [Step.run_cons, readBit_node s purpose hnext, Step.quiet_andThen, hrest, hmoved]

/-- A word of a code takes the reader to its symbol. -/
theorem run_word (s : Inflate) (purpose : Purpose) {lengths : List Nat} {symbol : Nat}
    {word : List Bool} (hroom : Huffman.HasRoom lengths) (h : IsWord lengths symbol word) :
    ∃ stage, Step.run readBit
        (s.goto (.symbol (.ofWords (Huffman.words lengths)) purpose)) word =
      ((s.moved word.length).amid stage 0 0).readSymbol purpose symbol :=
  run_symbol s purpose (Huffman.follow_of_mem_words hroom h) (Huffman.ne_nil_of_mem_words h)

/-- The bits take the reader from one state to another and bring the data. -/
def Reads (s : Inflate) (bits : List Bool) (t : Inflate) (data : Bytes) : Prop :=
  (Step.run readBit s bits).Yields t data

theorem Reads.append {s t u : Inflate} {xs ys : List Bool} {out out' : Bytes}
    (h : s.Reads xs t out) (h' : t.Reads ys u out') : s.Reads (xs ++ ys) u (out ++ out') :=
  Step.Yields.run_append h h'

theorem isFinished_run {s : Inflate} (h : s.isFinished = true) (bits : List Bool) :
    (Step.run readBit s bits).state.isFinished = true :=
  Step.run_keeps (P := fun s : Inflate => s.isFinished = true)
    (fun _ bit hs => (readBit_of_finished hs bit).1) h bits

/-- If the stream goes on behind the bits, it does not end within them. -/
theorem Reads.scan_part {s t : Inflate} {bits : List Bool} {out : Bytes} (h : s.Reads bits t out)
    (hmore : t.isFinished = false) {short : List Bool} (hshort : short <+: bits) :
    s.scan short = none := by
  obtain ⟨rest, rfl⟩ := hshort
  rw [Reads, Step.run_append] at h
  cases hfault : (Step.run readBit s short).fault with
  | some e =>
    have hstop := h.1
    rw [Step.andThen_of_fault hfault, hfault] at hstop
    cases hstop
  | none =>
    have hopen : (Step.run readBit s short).state.isFinished = false := by
      by_contra hfinished
      have hend := isFinished_run (Bool.not_eq_false _ ▸ hfinished) rest
      rw [← Step.state_andThen hfault (Step.run readBit · rest), h.2.1, hmore] at hend
      cases hend
    have hscan := scan_of_yields (Step.yields_of_no_fault hfault) []
    rwa [List.append_nil, scan_nil hopen, Option.map_none] at hscan

theorem Reads.delimits {s t : Inflate} {bits rest : List Bool} {out out' : Bytes}
    (h : s.Reads bits t out) (hmore : t.isFinished = false) (hrest : Delimits t.scan rest out') :
    Delimits s.scan (bits ++ rest) (out ++ out') :=
  hrest.prepend (f := (out ++ ·)) (fun _ hshort _ => h.scan_part hmore hshort) (scan_of_yields h)

/-- Part of a number is not the end of a stream. -/
theorem scan_number_part (s : Inflate) (field : Field) {width : Nat} {short : List Bool}
    (value got : Nat) (h : got + short.length < width) :
    (s.amid (.number width field) value got).scan short = none := by
  induction short generalizing s value got with
  | nil => exact scan_nil rfl
  | cons bit short ih =>
    rw [List.length_cons] at h
    have hmore : got + 1 < width := by omega
    rw [scan_cons rfl rfl, readBit_number_more s field hmore]
    exact congrArg (Option.map _) (ih (s.moved 1) _ (got + 1) (by omega))

/-- A number that ends the stream. -/
theorem delimits_number {s u : Inflate} {field : Field} {width : Nat} {bits : List Bool}
    (hlength : bits.length = width) (h : (s.goto (.number width field)).Reads bits u [])
    (hend : u.isFinished = true) : Delimits (s.goto (.number width field)).scan bits [] := by
  constructor
  · intro more
    rw [scan_of_yields h, scan_of_finished hend]
    rfl
  · intro short hshort hne
    have hlt := length_lt_of_prefix hshort hne
    exact scan_number_part s field 0 0 (by omega)

theorem reads_of_quiet {s t : Inflate} {bits : List Bool} (h : Step.run readBit s bits = .quiet t) :
    s.Reads bits t [] := by
  rw [Reads, h]
  exact Step.yields_quiet t

theorem reads_of_emit {s t u : Inflate} {bits : List Bool} {data : Bytes}
    {f : Inflate → Step Inflate} (h : Step.run readBit s bits = (t.emit data).andThen f)
    (hf : f (t.took data) = .quiet u) : s.Reads bits u data := by
  have hyields : ((t.emit data).andThen f).Yields u (data ++ []) := by
    apply Step.Yields.andThen (Step.yields_write (t.took data) data)
    rw [hf]
    exact Step.yields_quiet u
  rw [List.append_nil] at hyields
  rwa [Reads, h]

theorem goto_amid (s : Inflate) (stage stage' : Stage) (value got : Nat) :
    (s.amid stage value got).goto stage' = s.goto stage' := rfl

theorem endBlock_amid (s : Inflate) (stage : Stage) (value got : Nat) :
    (s.amid stage value got).endBlock = s.endBlock := rfl

end Inflate
end PdfStream.Flate
