import PdfStream.Flate.Token
import PdfStream.Proofs.Bytes
import PdfStream.Proofs.Flate.Format

/-!
Tokens stand for the data they were found in, whatever the search proposed. Their bits are the words
of the fixed codes, and their ranges leave no number out.
-/
namespace PdfStream.Flate

namespace Token

theorem getD_wordTable {lengths : List Nat} {symbol : Nat} (h : symbol < lengths.length) :
    (wordTable lengths).getD symbol [] = ((Huffman.words lengths).lookup symbol).getD [] := by
  simp [wordTable, h]

/-- The table has the words of all symbols that have one. -/
theorem isWord_wordTable {lengths : List Nat} {symbol : Nat} (h : symbol < lengths.length)
    (hword : symbol ∈ (Huffman.words lengths).map Prod.fst) :
    IsWord lengths symbol ((wordTable lengths).getD symbol []) := by
  rw [getD_wordTable h]
  cases hlookup : (Huffman.words lengths).lookup symbol with
  | none =>
    obtain ⟨word, hmem, rfl⟩ := List.mem_map.1 hword
    have hne := List.lookup_eq_none_iff.1 hlookup word hmem
    simp at hne
  | some bits =>
    obtain ⟨before, after, hsplit, -⟩ := List.lookup_eq_some_iff.1 hlookup
    rw [IsWord, hsplit]
    exact List.mem_append_right _ List.mem_cons_self

/-- The words of seven bits come first, then those of eight and nine. -/
theorem symbols_fixedLiterals : (Huffman.words fixedLiteralLengths).map Prod.fst =
    List.range' 256 24 ++ List.range' 0 144 ++ List.range' 280 8 ++ List.range' 144 112 := by
  decide +kernel

theorem symbols_fixedDistances :
    (Huffman.words fixedDistanceLengths).map Prod.fst = List.range' 0 32 := by
  decide +kernel

theorem isWord_literalWords {symbol : Nat} (h : symbol < 288) :
    IsWord fixedLiteralLengths symbol (literalWords.getD symbol []) := by
  have hlength : fixedLiteralLengths.length = 288 := by
    simp only [fixedLiteralLengths, List.length_append, List.length_replicate]
  apply isWord_wordTable (by rwa [hlength])
  rw [symbols_fixedLiterals]
  simp only [List.mem_append, List.mem_range'_1]
  omega

theorem isWord_distanceWords {symbol : Nat} (h : symbol < 32) :
    IsWord fixedDistanceLengths symbol (distanceWords.getD symbol []) := by
  have hlength : fixedDistanceLengths.length = 32 := List.length_replicate
  apply isWord_wordTable (by rwa [hlength])
  rw [symbols_fixedDistances, List.mem_range'_1]
  omega

/-- Ranges in order, none of which starts after the end of the one before; the last goes beyond the
limit. -/
structure Covers (limit : Nat) (ranges : List (Nat × Nat)) : Prop where
  sorted : ranges.Pairwise fun range later => range.1 < later.1
  close : ranges.IsChain fun range next => next.1 ≤ range.1 + 2 ^ range.2
  last : ∀ range ∈ ranges.getLast?, limit < range.1 + 2 ^ range.2

theorem covers_lengthRanges : Covers longest lengthRanges := by
  constructor <;> decide

theorem covers_distanceRanges : Covers farthest distanceRanges := by
  constructor <;> decide

/-- The search for the last range that starts at or below `value`, from index `k` on. -/
def rangeFrom (value k : Nat) (found : Nat × Nat × Nat) (ranges : List (Nat × Nat)) :
    Nat × Nat × Nat :=
  (ranges.zipIdx k).foldl (fun found entry =>
    if entry.1.1 ≤ value then (entry.2, entry.1.1, entry.1.2) else found) found

theorem rangeFrom_cons (value k : Nat) (found : Nat × Nat × Nat) (range : Nat × Nat)
    (ranges : List (Nat × Nat)) : rangeFrom value k found (range :: ranges) =
      rangeFrom value (k + 1) (if range.1 ≤ value then (k, range) else found) ranges := rfl

theorem rangeFrom_late {value : Nat} {ranges : List (Nat × Nat)}
    (h : ∀ range ∈ ranges, value < range.1) (k : Nat) (found : Nat × Nat × Nat) :
    rangeFrom value k found ranges = found := by
  induction ranges generalizing k with
  | nil => rfl
  | cons range ranges ih =>
    have hlate := h range List.mem_cons_self
    rw [rangeFrom_cons, if_neg (Nat.not_le_of_lt hlate)]
    exact ih (fun later hmem => h later (List.mem_cons_of_mem range hmem)) (k + 1)

theorem rangeFrom_spec {limit value : Nat} {range : Nat × Nat} {ranges : List (Nat × Nat)}
    (h : Covers limit (range :: ranges)) (hfirst : range.1 ≤ value) (hlimit : value ≤ limit)
    (k : Nat) (found : Nat × Nat × Nat) :
    ∃ i, (rangeFrom value k found (range :: ranges)).1 = k + i ∧
      (range :: ranges)[i]? = some (rangeFrom value k found (range :: ranges)).2 ∧
      (rangeFrom value k found (range :: ranges)).2.1 ≤ value ∧
      value < (rangeFrom value k found (range :: ranges)).2.1 +
        2 ^ (rangeFrom value k found (range :: ranges)).2.2 := by
  induction ranges generalizing range k found with
  | nil =>
    have hlast := h.last range rfl
    rw [rangeFrom_cons, if_pos hfirst]
    exact ⟨0, rfl, rfl, hfirst, Nat.lt_of_le_of_lt hlimit hlast⟩
  | cons next ranges ih =>
    have hclose : next.1 ≤ range.1 + 2 ^ range.2 := (List.isChain_cons_cons.1 h.close).1
    have hrest : Covers limit (next :: ranges) :=
      ⟨(List.pairwise_cons.1 h.sorted).2, (List.isChain_cons_cons.1 h.close).2, h.last⟩
    rw [rangeFrom_cons, if_pos hfirst]
    by_cases hnext : next.1 ≤ value
    · obtain ⟨i, hindex, hget, hbounds⟩ := ih hrest hnext (k + 1) (k, range)
      exact ⟨i + 1, by rw [hindex]; omega, hget, hbounds⟩
    · have hlate : ∀ later ∈ next :: ranges, value < later.1 := by
        intro later hmem
        rcases List.mem_cons.1 hmem with rfl | hmem
        · exact Nat.lt_of_not_le hnext
        · have hless := (List.pairwise_cons.1 hrest.sorted).1 later hmem
          omega
      rw [rangeFrom_late hlate]
      exact ⟨0, rfl, rfl, hfirst, Nat.lt_of_lt_of_le (Nat.lt_of_not_le hnext) hclose⟩

/-- The range of a number has an index, and the number lies in it. -/
theorem rangeOf_spec {limit value : Nat} {ranges : List (Nat × Nat)} (h : Covers limit ranges)
    (hfirst : ∃ range ∈ ranges.head?, range.1 ≤ value) (hlimit : value ≤ limit) :
    ∃ i base extra, rangeOf ranges value = (i, base, extra) ∧
      ranges[i]? = some (base, extra) ∧ base ≤ value ∧ value < base + 2 ^ extra := by
  obtain ⟨range, hhead, hle⟩ := hfirst
  cases ranges with
  | nil => cases hhead
  | cons first ranges =>
    cases hhead
    obtain ⟨i, hindex, hget, hlow, hhigh⟩ := rangeFrom_spec h hle hlimit 0 (0, 0, 0)
    rw [Nat.zero_add] at hindex
    exact ⟨i, _, _, Prod.ext hindex rfl, hget, hlow, hhigh⟩

/-- The word that a table has for the symbol of the number's range, and the number's place there. -/
def rangeBits (ranges : List (Nat × Nat)) (table : Array (List Bool)) (first n : Nat) : List Bool :=
  table.getD (first + (rangeOf ranges n).1) [] ++
    Bits.lowFirst (rangeOf ranges n).2.2 (n - (rangeOf ranges n).2.1)

theorem isNumber_rangeBits {limit n first : Nat} {ranges : List (Nat × Nat)}
    {lengths : List Nat} {table : Array (List Bool)} (h : Covers limit ranges)
    (hfirst : ∃ range ∈ ranges.head?, range.1 ≤ n) (hlimit : n ≤ limit)
    (htable : ∀ i < ranges.length, IsWord lengths (first + i) (table.getD (first + i) [])) :
    IsNumber ranges lengths first n (rangeBits ranges table first n) := by
  obtain ⟨i, base, extra, hfound, hrange, hlow, hhigh⟩ := rangeOf_spec h hfirst hlimit
  obtain ⟨hi, -⟩ := List.getElem?_eq_some_iff.1 hrange
  rw [rangeBits, hfound]
  exact .intro hrange hlow hhigh (htable i hi)

theorem isNumber_length {length : Nat} (hshort : shortest ≤ length) (hlong : length ≤ longest) :
    IsNumber lengthRanges fixedLiteralLengths 257 length
      (rangeBits lengthRanges literalWords 257 length) := by
  apply isNumber_rangeBits covers_lengthRanges ⟨(3, 0), rfl, hshort⟩ hlong
  intro i hi
  have hlt : i < 29 := hi
  exact isWord_literalWords (by omega)

theorem isNumber_distance {distance : Nat} (hpos : 1 ≤ distance) (hfar : distance ≤ farthest) :
    IsNumber distanceRanges fixedDistanceLengths 0 distance
      (rangeBits distanceRanges distanceWords 0 distance) := by
  apply isNumber_rangeBits covers_distanceRanges ⟨(1, 0), rfl, hpos⟩ hfar
  intro i hi
  have hlt : i < 30 := hi
  exact isWord_distanceWords (by omega)

theorem bits_reference (length distance : Nat) : (reference length distance).bits =
    rangeBits lengthRanges literalWords 257 length ++
      rangeBits distanceRanges distanceWords 0 distance := by
  simp only [bits, rangeBits, Nat.zero_add, List.append_assoc]

/-- The tokens stand for the data from i on. -/
def Spells (data : Array UInt8) (i : Nat) : List Token → Prop
  | [] => data.size ≤ i
  | .literal b :: tokens => i < data.size ∧ b = data.getD i 0 ∧ Spells data (i + 1) tokens
  | .reference length distance :: tokens =>
    Fits data i length distance ∧ Spells data (i + length) tokens

theorem search_spells (depth : Nat) (data : Array UInt8) (places : Places) (i : Nat)
    (done : Array Token) {fuel : Nat} (h : data.size ≤ i + fuel) :
    ∃ tokens, (search depth data places i done fuel).toList = done.toList ++ tokens ∧
      Spells data i tokens := by
  induction fuel generalizing places i done with
  | zero => exact ⟨[], (List.append_nil _).symm, h⟩
  | succ fuel ih =>
    by_cases hi : i < data.size
    · rw [search, if_pos hi]
      dsimp only
      generalize best data i (places.getD (key data i) []) = found
      by_cases hfits : Fits data i found.1 found.2
      · have hpositive : 3 ≤ found.1 := hfits.1
        obtain ⟨tokens, hlist, hspells⟩ := ih _ (i + found.1)
          (done.push (.reference found.1 found.2)) (by omega)
        refine ⟨.reference found.1 found.2 :: tokens, ?_, hfits, hspells⟩
        rw [if_pos hfits, hlist, Array.toList_push, List.append_assoc, List.singleton_append]
      · obtain ⟨tokens, hlist, hspells⟩ := ih _ (i + 1) (done.push (.literal (data.getD i 0)))
          (by omega)
        refine ⟨.literal (data.getD i 0) :: tokens, ?_, hi, rfl, hspells⟩
        rw [if_neg hfits, hlist, Array.toList_push, List.append_assoc, List.singleton_append]
    · rw [search, if_neg hi]
      exact ⟨[], (List.append_nil _).symm, Nat.le_of_not_lt hi⟩

theorem ofData_spells (depth : Nat) (data : Array UInt8) : Spells data 0 (ofData depth data) := by
  obtain ⟨tokens, hlist, hspells⟩ := search_spells depth data {} 0 #[] (Nat.le_add_left _ 0)
  rw [ofData, hlist]
  exact hspells

/-- What a reference stands for repeats the data in front, as long as it is. -/
theorem Fits.isCopy {data : Array UInt8} {i length distance : Nat}
    (h : Fits data i length distance) (old : Bytes) :
    IsCopy (old ++ data.toList.take i) distance ((data.toList.drop i).take length) := by
  obtain ⟨-, -, hpos, -, hfar, hend, hsame⟩ := h
  have hdata (place : Nat) (hplace : place < i + length) :
      (old ++ data.toList.take i ++ (data.toList.drop i).take length)[old.length + place]? =
        some (data.getD place 0) := by
    rw [List.append_assoc, ← List.take_add, List.getElem?_append_right (Nat.le_add_right _ _),
      Nat.add_sub_cancel_left, List.getElem?_take_of_lt hplace, Array.getElem?_toList,
      Array.getD_eq_getD_getElem?, Array.getElem?_eq_getElem (by omega), Option.getD_some]
  have hfront : (old ++ data.toList.take i).length = old.length + i := by
    have hsize : data.toList.length = data.size := Array.length_toList
    rw [List.length_append, List.length_take, hsize, Nat.min_eq_left (by omega)]
  constructor
  · exact hpos
  · omega
  · intro k hk
    have hlt : k < length := by
      rw [List.length_take] at hk
      omega
    have hback : old.length + (i + k) - distance = old.length + (i + k - distance) := by omega
    rw [hfront, Nat.add_assoc, hback, hdata (i + k) (by omega), hdata (i + k - distance) (by omega),
      hsame k hlt]

end Token
end PdfStream.Flate
