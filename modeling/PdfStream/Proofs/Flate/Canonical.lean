import Mathlib.Data.List.Sigma
import PdfStream.Flate.Huffman
import PdfStream.Proofs.Bits

/-!
Canonical codes. The words of a code take up parts of a line that lie one behind the other, so none
of them begins another, and the tree that is made of them leads each word to its symbol.
-/
namespace PdfStream.Flate.Huffman

/-- The symbol at the end of a path. -/
def follow : Huffman → List Bool → Option Nat
  | .leaf symbol, [] => some symbol
  | .node zero one, bit :: bits => follow (if bit then one else zero) bits
  | _, _ => none

/-- Neither of two words begins the other. -/
def IsApart (xs ys : List Bool) : Prop := ¬xs <+: ys ∧ ¬ys <+: xs

theorem IsApart.of_cons {bit : Bool} {xs ys : List Bool} (h : IsApart (bit :: xs) (bit :: ys)) :
    IsApart xs ys :=
  ⟨fun hprefix => h.1 (List.cons_prefix_cons.2 ⟨rfl, hprefix⟩),
    fun hprefix => h.2 (List.cons_prefix_cons.2 ⟨rfl, hprefix⟩)⟩

theorem follow_insert_self (symbol : Nat) (word : List Bool) (tree : Huffman) :
    (insert symbol word tree).follow word = some symbol := by
  induction word generalizing tree with
  | nil => rfl
  | cons bit word ih => cases bit <;> simp [insert, follow, ih]

/-- A word that is put into a tree leaves those apart from it where they lead. -/
theorem follow_insert_of_isApart (symbol : Nat) {word path : List Bool} (h : IsApart word path)
    (tree : Huffman) : (insert symbol word tree).follow path = tree.follow path := by
  induction word generalizing path tree with
  | nil => exact absurd List.nil_prefix h.1
  | cons bit word ih =>
    cases path with
    | nil => exact absurd List.nil_prefix h.2
    | cons bit' path =>
      have hnowhere : follow missing path = none := by cases path <;> rfl
      by_cases hsame : bit' = bit
      · subst hsame
        cases tree <;> cases bit' <;> simp [insert, follow, ih h.of_cons, hnowhere]
      · cases tree <;> cases bit <;> cases bit' <;> simp_all [insert, follow]

theorem follow_foldl_of_isApart {words : List (Nat × List Bool)} {path : List Bool}
    (h : ∀ entry ∈ words, IsApart path entry.2) (tree : Huffman) :
    (words.foldl (fun tree entry => insert entry.1 entry.2 tree) tree).follow path =
      tree.follow path := by
  induction words generalizing tree with
  | nil => rfl
  | cons entry words ih =>
    have happart := h entry List.mem_cons_self
    rw [List.foldl_cons, ih fun later hlater => h later (List.mem_cons_of_mem entry hlater)]
    exact follow_insert_of_isApart entry.1 happart.symm tree

/-- Words none of which begins another all lead to their symbols. -/
theorem follow_ofWords {words : List (Nat × List Bool)}
    (h : words.Pairwise fun entry later => IsApart entry.2 later.2) {entry : Nat × List Bool}
    (hentry : entry ∈ words) : (ofWords words).follow entry.2 = some entry.1 := by
  unfold ofWords
  generalize missing = tree
  induction words generalizing tree with
  | nil => cases hentry
  | cons first words ih =>
    obtain ⟨hfirst, hrest⟩ := List.pairwise_cons.1 h
    rw [List.foldl_cons]
    cases hentry with
    | head =>
      rw [follow_foldl_of_isApart hfirst]
      exact follow_insert_self _ _ _
    | tail _ hentry => exact ih hrest hentry _

theorem highFirst_add (width more n : Nat) : Bits.highFirst (width + more) n =
    Bits.highFirst width (n >>> more) ++ Bits.highFirst more n := by
  induction width with
  | zero => simp [Bits.highFirst]
  | succ width ih =>
    have hbit : (n >>> more).testBit width = n.testBit (width + more) := by
      rw [Nat.testBit_shiftRight, Nat.add_comm]
    rw [Nat.succ_add, Bits.highFirst, ih, Bits.highFirst, hbit, List.cons_append]

theorem highFirst_inj {width m n : Nat} (hm : m < 2 ^ width) (hn : n < 2 ^ width)
    (h : Bits.highFirst width m = Bits.highFirst width n) : m = n := by
  have hvalue := congrArg Bits.ofHighFirst h
  rwa [Bits.ofHighFirst_highFirst hm, Bits.ofHighFirst_highFirst hn] at hvalue

/-- What a word of this length takes of the line. -/
def share (length : Nat) : Nat := 1 <<< (maxLength - length)

theorem shiftRight_lt {length point : Nat} (hlength : length ≤ maxLength)
    (hpoint : point < share 0) : point >>> (maxLength - length) < 2 ^ length := by
  have hline : share 0 = 2 ^ length * 2 ^ (maxLength - length) := by
    rw [share, Nat.shiftLeft_eq, Nat.one_mul, ← Nat.pow_add, Nat.sub_zero, Nat.add_sub_cancel' hlength]
  rw [Nat.shiftRight_eq_div_pow, Nat.div_lt_iff_lt_mul (Nat.two_pow_pos _), ← hline]
  exact hpoint

/-- A word and one that is as long or longer, and lies behind its share. -/
theorem isApart_highFirst {length longer point later : Nat} (hlength : length ≤ longer)
    (hlonger : longer ≤ maxLength) (hbehind : point + share length ≤ later)
    (hline : later < share 0) :
    IsApart (Bits.highFirst length (point >>> (maxLength - length)))
      (Bits.highFirst longer (later >>> (maxLength - longer))) := by
  have hbegins : ¬Bits.highFirst length (point >>> (maxLength - length)) <+:
      Bits.highFirst longer (later >>> (maxLength - longer)) := by
    intro hbegins
    obtain ⟨more, rfl⟩ := Nat.exists_eq_add_of_le hlength
    have hshift : maxLength - (length + more) + more = maxLength - length := by omega
    rw [highFirst_add, ← Nat.shiftRight_add, hshift] at hbegins
    have hwords : Bits.highFirst length (point >>> (maxLength - length)) =
        Bits.highFirst length (later >>> (maxLength - length)) := by
      have hwithin := List.prefix_of_prefix_length_le hbegins (List.prefix_append _ _) (by simp)
      exact hwithin.eq_of_length (by simp)
    have hpoints := highFirst_inj (shiftRight_lt (by omega) (by omega))
      (shiftRight_lt (by omega) hline) hwords
    have hnext := Nat.div_le_div_right (c := 2 ^ (maxLength - length)) hbehind
    rw [share, Nat.one_shiftLeft, Nat.add_div_right _ (Nat.two_pow_pos _)] at hnext
    rw [Nat.shiftRight_eq_div_pow, Nat.shiftRight_eq_div_pow] at hpoints
    omega
  refine ⟨hbegins, fun hother => ?_⟩
  have hlengths := hother.length_le
  simp only [Bits.length_highFirst] at hlengths
  have hsame := hother.eq_of_length (by simp only [Bits.length_highFirst]; omega)
  exact hbegins (hsame ▸ List.prefix_refl _)

/-- What all these words take. -/
def total (entries : List (Nat × Nat)) : Nat := (entries.map fun entry => share entry.1).sum

theorem mem_assign {start : Nat} {entries : List (Nat × Nat)} {word : Nat × List Bool}
    (h : word ∈ assign start entries) : ∃ length point, (length, word.1) ∈ entries ∧
      start ≤ point ∧ point + share length ≤ start + total entries ∧
      word.2 = Bits.highFirst length (point >>> (maxLength - length)) := by
  induction entries generalizing start with
  | nil => cases h
  | cons entry entries ih =>
    have htotal : total (entry :: entries) = share entry.1 + total entries := List.sum_cons
    rw [assign] at h
    cases h with
    | head =>
      exact ⟨entry.1, start, List.mem_cons_self, Nat.le_refl _, by omega, rfl⟩
    | tail _ h =>
      obtain ⟨length, point, hmem, hstart, hend, hword⟩ := ih h
      rw [← share] at hstart hend
      exact ⟨length, point, List.mem_cons_of_mem _ hmem, by omega, by omega, hword⟩

theorem share_pos (length : Nat) : 0 < share length := by
  rw [share, Nat.one_shiftLeft]
  exact Nat.two_pow_pos _

/-- By induction on the entries: each word is apart from those that are assigned behind it. -/
theorem pairwise_assign {start : Nat} {entries : List (Nat × Nat)}
    (hsorted : entries.Pairwise fun entry later => entry.1 ≤ later.1)
    (hshort : ∀ entry ∈ entries, entry.1 ≤ maxLength) (hroom : start + total entries ≤ share 0) :
    (assign start entries).Pairwise fun word later => IsApart word.2 later.2 := by
  induction entries generalizing start with
  | nil => exact .nil
  | cons entry entries ih =>
    obtain ⟨hfirst, hrest⟩ := List.pairwise_cons.1 hsorted
    have htotal : total (entry :: entries) = share entry.1 + total entries := List.sum_cons
    rw [assign, ← share]
    constructor
    · intro later hlater
      obtain ⟨length, point, hmem, hstart, hend, hword⟩ := mem_assign hlater
      have hpositive := share_pos length
      rw [hword]
      exact isApart_highFirst (hfirst _ hmem) (hshort _ (List.mem_cons_of_mem _ hmem)) hstart
        (by omega)
    · exact ih hrest (fun later hlater => hshort later (List.mem_cons_of_mem _ hlater)) (by omega)

/-- The symbols in use, in the order they are listed in. -/
def used (lengths : List Nat) : List (Nat × Nat) :=
  lengths.zipIdx.filter fun entry => entry.1 ≠ 0

theorem sorted_eq (lengths : List Nat) : sorted lengths = (List.range (maxLength + 1)).flatMap
    fun length => (used lengths).filter fun entry => entry.1 = length := rfl

theorem mem_sorted {lengths : List Nat} {entry : Nat × Nat} :
    entry ∈ sorted lengths ↔ entry ∈ used lengths ∧ entry.1 ≤ maxLength := by
  simp only [sorted_eq, List.mem_flatMap, List.mem_range, List.mem_filter, decide_eq_true_eq]
  constructor
  · rintro ⟨length, hlength, hmem, rfl⟩
    exact ⟨hmem, by omega⟩
  · rintro ⟨hmem, hlength⟩
    exact ⟨entry.1, by omega, hmem, rfl⟩

theorem pairwise_sorted (lengths : List Nat) :
    (sorted lengths).Pairwise fun entry later => entry.1 ≤ later.1 := by
  rw [sorted_eq, List.pairwise_flatMap]
  constructor
  · intro length _
    apply List.pairwise_filter.2
    apply List.pairwise_of_forall
    intro entry later hentry hlater
    rw [decide_eq_true_eq] at hentry hlater
    omega
  · apply List.pairwise_lt_range.imp
    intro length longer hlt entry hentry later hlater
    simp only [List.mem_filter, decide_eq_true_eq] at hentry hlater
    omega

theorem nodup_used (lengths : List Nat) : (used lengths).Nodup :=
  (List.nodup_zipIdx_map_snd lengths).of_map.filter _

theorem nodup_sorted (lengths : List Nat) : (sorted lengths).Nodup := by
  rw [sorted_eq, List.nodup_flatMap]
  constructor
  · intro length _
    exact (nodup_used lengths).filter _
  · apply List.pairwise_lt_range.imp
    intro length longer hlt entry hentry hlater
    simp only [List.mem_filter, decide_eq_true_eq] at hentry hlater
    omega

theorem map_fst_used (lengths : List Nat) : (used lengths).map Prod.fst = lengths.filter (· ≠ 0) := by
  conv_rhs => rw [← List.zipIdx_map_fst 0 lengths, List.filter_map]
  rfl

theorem le_of_mem_used {lengths : List Nat} (h : ∀ length ∈ lengths, length ≤ maxLength)
    {entry : Nat × Nat} (hentry : entry ∈ used lengths) : entry.1 ≤ maxLength := by
  have hmem : entry.1 ∈ (used lengths).map Prod.fst := List.mem_map_of_mem hentry
  rw [map_fst_used] at hmem
  exact h _ (List.mem_of_mem_filter hmem)

/-- Sorting leaves out no word that the tree has room for. -/
theorem total_sorted {lengths : List Nat} (h : ∀ length ∈ lengths, length ≤ maxLength) :
    total (sorted lengths) = taken lengths := by
  have hperm : (sorted lengths).Perm (used lengths) := by
    rw [List.perm_ext_iff_of_nodup (nodup_sorted lengths) (nodup_used lengths)]
    intro entry
    rw [mem_sorted, and_iff_left_iff_imp]
    exact le_of_mem_used h
  have htaken : taken lengths = ((lengths.filter (· ≠ 0)).map share).sum := by
    rw [List.sum_eq_foldl, List.foldl_map]
    rfl
  rw [htaken, ← map_fst_used, List.map_map]
  exact (hperm.map _).sum_nat

/-- Lengths whose words all find room on the line. -/
structure HasRoom (lengths : List Nat) : Prop where
  short : ∀ length ∈ lengths, length ≤ maxLength
  room : taken lengths ≤ share 0

theorem hasRoom_of_isComplete {lengths : List Nat} (hshort : ∀ length ∈ lengths, length ≤ maxLength)
    (h : IsComplete lengths) : HasRoom lengths := ⟨hshort, Nat.le_of_eq h⟩

theorem hasRoom_of_isSparse {lengths : List Nat} (hshort : ∀ length ∈ lengths, length ≤ maxLength)
    (h : IsSparse lengths) : HasRoom lengths := by
  refine ⟨hshort, ?_⟩
  unfold taken
  rcases h with h | h <;> rw [h] <;> decide

/-- The tree of a code leads each of its words to its symbol. -/
theorem follow_of_mem_words {lengths : List Nat} (h : HasRoom lengths) {entry : Nat × List Bool}
    (hentry : entry ∈ words lengths) : (ofWords (words lengths)).follow entry.2 = some entry.1 := by
  apply follow_ofWords _ hentry
  apply pairwise_assign (pairwise_sorted lengths)
  · intro entry hmem
    exact (mem_sorted.1 hmem).2
  · rw [Nat.zero_add, total_sorted h.short]
    exact h.room

theorem ne_nil_of_mem_words {lengths : List Nat} {entry : Nat × List Bool}
    (hentry : entry ∈ words lengths) : entry.2 ≠ [] := by
  obtain ⟨length, point, hmem, -, -, hword⟩ := mem_assign hentry
  have hused := (mem_sorted.1 hmem).1
  have hlength : length ≠ 0 := of_decide_eq_true (List.mem_filter.1 hused).2
  rw [hword, ← List.length_pos_iff, Bits.length_highFirst]
  exact Nat.pos_of_ne_zero hlength

end PdfStream.Flate.Huffman
