import PdfStream.Proofs.Flate.Run

/-!
The codes that a block brings, read bit by bit: the sizes, the code for the lengths, and the lengths.
What they tell are lengths whose words all find room in a tree.
-/
namespace PdfStream.Flate

/-- Every word of the codes has its place in their trees. -/
structure Codes.HaveRoom (codes : Codes) : Prop where
  literals : Huffman.HasRoom codes.literals
  distances : Huffman.HasRoom codes.distances

theorem Codes.haveRoom_fixed : Codes.fixed.HaveRoom := by
  constructor <;> constructor <;> decide +kernel

theorem IsUsable.hasRoom {lengths : List Nat} (h : IsUsable lengths)
    (hshort : ∀ length ∈ lengths, length < 16) : Huffman.HasRoom lengths := by
  have hle : ∀ length ∈ lengths, length ≤ Huffman.maxLength := fun length hmem =>
    Nat.le_of_lt_succ (hshort length hmem)
  rcases h with h | h
  · exact Huffman.hasRoom_of_isComplete hle h
  · exact Huffman.hasRoom_of_isSparse hle h

theorem IsRun.lt {before : List Nat} {symbol width base length : Nat}
    (h : IsRun before symbol width base length) (hbefore : ∀ length ∈ before, length < 16) :
    length < 16 := by
  cases h with
  | previous hlast => exact hbefore _ (List.mem_of_getLast? hlast)
  | zeros | manyZeros => exact Nat.succ_pos 15

/-- No length is beyond the longest, by induction on the bits that tell them. -/
theorem AreLengths.lt {code before lengths : List Nat} {bits : List Bool}
    (h : AreLengths code before bits lengths) (hbefore : ∀ length ∈ before, length < 16) :
    ∀ length ∈ before ++ lengths, length < 16 := by
  induction h with
  | done => rwa [List.append_nil]
  | one hshort hword hrest ih =>
    rw [List.append_cons]
    apply ih
    simpa [or_imp, forall_and] using ⟨hbefore, hshort⟩
  | run hrun hword hmore hrest ih =>
    rw [← List.append_assoc]
    apply ih
    intro length hmem
    rcases List.mem_append.1 hmem with hmem | hmem
    · exact hbefore length hmem
    · rw [List.eq_of_mem_replicate hmem]
      exact hrun.lt hbefore

theorem AreTables.haveRoom {codes : Codes} {bits : List Bool} (h : AreTables codes bits) :
    codes.HaveRoom := by
  cases h with
  | intro hliterals hdistances hlisted hshort hcomplete hlengths husable husable' =>
    have hall := hlengths.lt (List.forall_mem_nil _)
    rw [List.nil_append] at hall
    constructor
    · exact husable.hasRoom fun length hmem => hall length (List.mem_append_left _ hmem)
    · exact husable'.hasRoom fun length hmem => hall length (List.mem_append_right _ hmem)

theorem hasRoom_lengthCodeLengths {listed : List Nat} (hshort : ∀ length ∈ listed, length < 8)
    (h : Huffman.IsComplete (Inflate.lengthCodeLengths listed)) :
    Huffman.HasRoom (Inflate.lengthCodeLengths listed) := by
  apply Huffman.hasRoom_of_isComplete _ h
  intro length hmem
  obtain ⟨symbol, -, rfl⟩ := List.mem_map.1 hmem
  cases hlookup : (lengthCodeOrder.zip listed).lookup symbol with
  | none => exact Nat.zero_le _
  | some length =>
    obtain ⟨before, after, hsplit, -⟩ := List.lookup_eq_some_iff.1 hlookup
    have hlisted : (symbol, length) ∈ lengthCodeOrder.zip listed := by
      rw [hsplit]
      exact List.mem_append_right _ List.mem_cons_self
    have hlt := hshort length (List.of_mem_zip hlisted).2
    exact Nat.le_trans (Nat.le_of_lt hlt) (by decide)

namespace Inflate

/-- The reader at a symbol of a block with these codes. -/
def inCodes (s : Inflate) (codes : Codes) : Inflate :=
  s.withTables (.ofWords (Huffman.words codes.literals)) (.ofWords (Huffman.words codes.distances))

/-- The reader that has come so far in the lengths of a block's codes. -/
def inLengths (s : Inflate) (sizes : TableSizes) (code lengths : List Nat) : Inflate :=
  { s with sizes, lengthTree := .ofWords (Huffman.words code), lengths := lengths.toArray }

/-- How many lengths tell these codes, after as many as `listed` for the length code. -/
def sizesOf (codes : Codes) (listed : Nat) : TableSizes :=
  ⟨codes.literals.length, codes.distances.length, listed⟩

section
variable (s : Inflate) {codes : Codes} {sizes : TableSizes} (code : List Nat) {before : List Nat}
variable (stage : Stage) (value got : Nat)

theorem afterLengths_more {listed : Nat} {lengths : List Nat} (hne : lengths ≠ [])
    (hall : before ++ lengths = codes.literals ++ codes.distances) :
    ((s.inLengths (sizesOf codes listed) code before).amid stage value got).afterLengths =
      .quiet ((s.inLengths (sizesOf codes listed) code before).goto
        (.symbol (.ofWords (Huffman.words code)) .codeLength)) := by
  have hlength := congrArg List.length hall
  have hpositive := List.length_pos_iff.2 hne
  simp only [List.length_append] at hlength
  have hmore : before.length < codes.literals.length + codes.distances.length := by omega
  exact if_pos hmore

theorem afterLengths_all {listed : Nat} (husable : IsUsable codes.literals)
    (husable' : IsUsable codes.distances) :
    ((s.inLengths (sizesOf codes listed) code (codes.literals ++ codes.distances)).amid stage value
        got).afterLengths =
      .quiet ((s.inLengths (sizesOf codes listed) code (codes.literals ++ codes.distances)).inCodes
        codes) := by
  have hliterals : Huffman.ofLengths? codes.literals =
      some (.ofWords (Huffman.words codes.literals)) := if_pos husable
  have hdistances : Huffman.ofLengths? codes.distances =
      some (.ofWords (Huffman.words codes.distances)) := if_pos husable'
  simp [afterLengths, inLengths, amid, sizesOf, hliterals, hdistances, inCodes, withTables,
    nextLiteral, goto]

theorem readCodeLength_one {length : Nat} (hshort : length < 16) :
    ((s.inLengths sizes code before).amid stage value got).readCodeLength length =
      ((s.inLengths sizes code (before ++ [length])).amid stage value got).afterLengths := by
  rw [readCodeLength, if_pos hshort]
  simp [inLengths, amid]

theorem readCodeLength_run {symbol width base length : Nat}
    (hrun : IsRun before symbol width base length) :
    ((s.inLengths sizes code before).amid stage value got).readCodeLength symbol =
      .quiet ((s.inLengths sizes code before).goto (.number width (.repeated base length))) := by
  cases hrun with
  | previous hlast =>
    have hback : before.toArray.back? = some length := by
      rw [← hlast]
      simp
    simp [readCodeLength, inLengths, amid, hback, goto]
  | zeros => rfl
  | manyZeros => rfl

theorem readField_repeated (base more length : Nat) :
    ((s.inLengths sizes code before).amid stage value got).readField (.repeated base length) more =
      ((s.inLengths sizes code (before ++ List.replicate (base + more) length)).amid stage value
        got).afterLengths := by
  have hlengths : before.toArray ++ Array.replicate (base + more) length =
      (before ++ List.replicate (base + more) length).toArray := by
    apply Array.ext'
    simp
  simp only [readField, inLengths, amid, hlengths]

end

section
variable {codes : Codes} (sizes : TableSizes) {code before : List Nat}

/-- The word of a length. -/
theorem run_length (hroom : Huffman.HasRoom code) (s : Inflate) {length : Nat} {word : List Bool}
    (hshort : length < 16) (hword : IsWord code length word) :
    ∃ stage value got, Step.run readBit ((s.inLengths sizes code before).goto
        (.symbol (.ofWords (Huffman.words code)) .codeLength)) word =
      (((s.moved word.length).inLengths sizes code (before ++ [length])).amid stage value
        got).afterLengths := by
  obtain ⟨stage, hrun⟩ := run_word (s.inLengths sizes code before) .codeLength hroom hword
  exact ⟨stage, 0, 0, hrun.trans (readCodeLength_one (s.moved word.length) code stage 0 0 hshort)⟩

/-- The word of a run of lengths, and the bits that tell how many they are. -/
theorem run_lengthRun (hroom : Huffman.HasRoom code) (s : Inflate)
    {symbol width base length more : Nat} {word : List Bool}
    (hrun : IsRun before symbol width base length) (hword : IsWord code symbol word)
    (hmore : more < 2 ^ width) :
    ∃ stage value got, Step.run readBit ((s.inLengths sizes code before).goto
        (.symbol (.ofWords (Huffman.words code)) .codeLength)) (word ++ Bits.lowFirst width more) =
      (((s.moved (word.length + width)).inLengths sizes code
        (before ++ List.replicate (base + more) length)).amid stage value got).afterLengths := by
  have hwidth : width ≠ 0 := by cases hrun <;> decide
  obtain ⟨stage, hsymbol⟩ := run_word (s.inLengths sizes code before) .codeLength hroom hword
  obtain ⟨value, got, hsize⟩ := run_lowFirst ((s.moved word.length).inLengths sizes code before)
    (.repeated base length) hwidth hmore
  have hread : Step.run readBit ((s.inLengths sizes code before).goto
      (.symbol (.ofWords (Huffman.words code)) .codeLength)) word =
      .quiet (((s.moved word.length).inLengths sizes code before).goto
        (.number width (.repeated base length))) :=
    hsymbol.trans (readCodeLength_run (s.moved word.length) code stage 0 0 hrun)
  rw [Step.run_append, hread, Step.quiet_andThen, hsize, ← moved_moved]
  exact ⟨_, value, got,
    readField_repeated ((s.moved word.length).moved width) code _ value got base more length⟩

/-- By induction on what is left of the lengths: each word is read from where the one before it has
left the reader. -/
theorem run_lengths (husable : IsUsable codes.literals) (husable' : IsUsable codes.distances)
    (hroom : Huffman.HasRoom code) {bits : List Bool} {lengths : List Nat}
    (h : AreLengths code before bits lengths)
    (hall : before ++ lengths = codes.literals ++ codes.distances) (s : Inflate) (listed count : Nat)
    (stage : Stage) (value got : Nat) :
    (((s.moved count).inLengths (sizesOf codes listed) code before).amid stage value
        got).afterLengths.andThen (Step.run readBit · bits) =
      .quiet (((s.moved (count + bits.length)).inLengths (sizesOf codes listed) code
        (codes.literals ++ codes.distances)).inCodes codes) := by
  induction h generalizing count stage value got with
  | done =>
    rw [List.append_nil] at hall
    rw [hall, afterLengths_all _ code _ _ _ husable husable', Step.quiet_andThen]
    rfl
  | @one before length word bits lengths hshort hword hrest ih =>
    have hnext := (List.append_cons before length lengths).symm.trans hall
    obtain ⟨stage', value', got', hrun⟩ := run_length (sizesOf codes listed) hroom (s.moved count)
      hshort hword
    rw [afterLengths_more _ code _ _ _ (List.cons_ne_nil length lengths) hall, Step.quiet_andThen,
      Step.run_append, hrun, moved_moved, ih hnext, List.length_append, Nat.add_assoc]
  | @run before symbol width base length more word bits lengths hrun hword hmore hrest ih =>
    have hnext := (List.append_assoc before _ lengths).trans hall
    have hne : List.replicate (base + more) length ++ lengths ≠ [] := by
      have hbase : base ≠ 0 := by cases hrun <;> decide
      simp [hbase]
    obtain ⟨stage', value', got', hread⟩ := run_lengthRun (sizesOf codes listed) hroom
      (s.moved count) hrun hword hmore
    rw [afterLengths_more _ code _ _ _ hne hall, Step.quiet_andThen, Step.run_append, hread,
      moved_moved, ih hnext, List.length_append, List.length_append, Bits.length_lowFirst]
    simp only [Nat.add_assoc]

end

theorem readField_lengthCode (s : Inflate) {sizes : TableSizes} {listed : List Nat} {length : Nat}
    (stage : Stage) (value got : Nat) (hlisted : (listed ++ [length]).length = sizes.lengthCodes)
    (hcomplete : Huffman.IsComplete (lengthCodeLengths (listed ++ [length]))) :
    (s.amid stage value got).readField (.lengthCode sizes listed) length =
      ((s.inLengths sizes (lengthCodeLengths (listed ++ [length])) []).amid stage value
        got).afterLengths := by
  have htree : Huffman.ofComplete? (lengthCodeLengths (listed ++ [length])) =
      some (.ofWords (Huffman.words (lengthCodeLengths (listed ++ [length])))) := if_pos hcomplete
  rw [readField, if_neg (Nat.not_lt_of_le (Nat.le_of_eq hlisted.symm))]
  simp only [htree]
  rfl

/-- The lengths of the length code, by induction on those that are still to come. -/
theorem run_listed (sizes : TableSizes) {rest : List Nat} (hne : rest ≠ []) (listed : List Nat)
    (hlisted : (listed ++ rest).length = sizes.lengthCodes) (hshort : ∀ length ∈ rest, length < 8)
    (hcomplete : Huffman.IsComplete (lengthCodeLengths (listed ++ rest))) (s : Inflate) :
    ∃ stage value got, Step.run readBit (s.goto (.number 3 (.lengthCode sizes listed)))
        (rest.flatMap (Bits.lowFirst 3)) =
      (((s.moved (3 * rest.length)).inLengths sizes (lengthCodeLengths (listed ++ rest)) []).amid
        stage value got).afterLengths := by
  induction rest generalizing s listed with
  | nil => exact absurd rfl hne
  | cons length rest ih =>
    obtain ⟨value, got, hrun⟩ := run_lowFirst s (.lengthCode sizes listed) (Nat.succ_ne_zero 2)
      (hshort length List.mem_cons_self)
    rw [List.append_cons] at hlisted hcomplete ⊢
    by_cases hlast : rest = []
    · subst hlast
      rw [List.append_nil] at hlisted hcomplete ⊢
      rw [readField_lengthCode _ _ _ _ hlisted hcomplete] at hrun
      rw [List.flatMap_singleton]
      exact ⟨_, value, got, hrun⟩
    · have hmore : (listed ++ [length]).length < sizes.lengthCodes := by
        have hpositive := List.length_pos_iff.2 hlast
        rw [List.length_append] at hlisted
        omega
      have hcount : 3 * (length :: rest).length = 3 + 3 * rest.length := by
        rw [List.length_cons]
        omega
      obtain ⟨stage', value', got', hrest⟩ := ih hlast (listed ++ [length]) hlisted
        (fun later hlater => hshort later (List.mem_cons_of_mem length hlater)) hcomplete (s.moved 3)
      rw [readField, if_pos hmore] at hrun
      rw [List.flatMap_cons, Step.run_append, hrun, goto_amid, Step.quiet_andThen, hrest, moved_moved,
        hcount]
      exact ⟨stage', value', got', rfl⟩

/-- The three sizes in one number. -/
theorem run_sizes (s : Inflate) {codes : Codes} {listed : Nat}
    (hliterals : 257 ≤ codes.literals.length ∧ codes.literals.length ≤ 286)
    (hdistances : 1 ≤ codes.distances.length ∧ codes.distances.length ≤ 30)
    (hlisted : 4 ≤ listed ∧ listed ≤ 19) :
    Step.run readBit (s.goto (.number 14 .tableSizes))
        (Bits.lowFirst 5 (codes.literals.length - 257) ++
          Bits.lowFirst 5 (codes.distances.length - 1) ++ Bits.lowFirst 4 (listed - 4)) =
      .quiet ((s.moved 14).goto (.number 3 (.lengthCode (sizesOf codes listed) []))) := by
  obtain ⟨bits, hbits⟩ : ∃ bits, bits = Bits.lowFirst 5 (codes.literals.length - 257) ++
      Bits.lowFirst 5 (codes.distances.length - 1) ++ Bits.lowFirst 4 (listed - 4) := ⟨_, rfl⟩
  have hlength : bits.length = 14 := by simp [hbits]
  have hvalue : Bits.ofLowFirst bits = codes.literals.length - 257 +
      32 * (codes.distances.length - 1) + 1024 * (listed - 4) := by
    rw [hbits, Bits.ofLowFirst_append, Bits.ofLowFirst_append, List.length_append,
      Bits.length_lowFirst, Bits.length_lowFirst, Bits.ofLowFirst_lowFirst (by omega),
      Bits.ofLowFirst_lowFirst (by omega), Bits.ofLowFirst_lowFirst (by omega)]
    rfl
  have hne : bits ≠ [] := by
    rw [← List.length_pos_iff, hlength]
    exact Nat.succ_pos 13
  obtain ⟨value, got, hrun⟩ := run_number s .tableSizes hne
  have hfirst : Bits.ofLowFirst bits % 32 + 257 = codes.literals.length := by omega
  have hsecond : Bits.ofLowFirst bits / 32 % 32 + 1 = codes.distances.length := by omega
  have hthird : Bits.ofLowFirst bits / 1024 + 4 = listed := by omega
  have hfew : ¬(286 < codes.literals.length ∨ 30 < codes.distances.length) := by omega
  rw [hlength, readField, hfirst, hsecond, hthird] at hrun
  rw [← hbits, hrun]
  exact if_neg hfew

/-- A block's codes, and the reader at the first symbol behind them. -/
theorem reads_tables {codes : Codes} {bits : List Bool} (h : AreTables codes bits) (s : Inflate) :
    ∃ sizes code lengths, (s.goto (.number 14 .tableSizes)).Reads bits
      (((s.moved bits.length).inLengths sizes code lengths).inCodes codes) [] := by
  cases h with
  | @intro listed bits hliterals hdistances hlisted hshort hcomplete hlengths husable husable' =>
    have hne : listed ≠ [] := by
      rw [← List.length_pos_iff]
      omega
    have hfirst := run_sizes s hliterals hdistances hlisted
    obtain ⟨stage, value, got, hcode⟩ := run_listed (sizesOf codes listed.length) hne [] rfl hshort
      hcomplete (s.moved 14)
    have hrest := run_lengths husable husable' (hasRoom_lengthCodeLengths hshort hcomplete) hlengths
      rfl s listed.length (14 + 3 * listed.length) stage value got
    refine ⟨sizesOf codes listed.length, lengthCodeLengths listed, codes.literals ++ codes.distances,
      reads_of_quiet ?_⟩
    have hcount : (Bits.lowFirst 5 (codes.literals.length - 257) ++
        Bits.lowFirst 5 (codes.distances.length - 1) ++ Bits.lowFirst 4 (listed.length - 4) ++
        listed.flatMap (Bits.lowFirst 3) ++ bits).length =
        14 + 3 * listed.length + bits.length := by
      simp
      omega
    rw [List.nil_append, moved_moved] at hcode
    rw [hcount, Step.run_append, Step.run_append, hfirst, Step.quiet_andThen, hcode, hrest]

end Inflate
end PdfStream.Flate
