import PdfStream.Lzw.Decoder
import PdfStream.Proofs.Delimited

/-!
Decoding LZW codes with no thought of blocks and pieces. Codes switch to the next width in time and
words stay short. A string of bits comes to its codes, and scanning makes of the bits what the words
among them spell; the end code must be there.
-/
namespace PdfStream.Lzw.Decoder

/-- Codes have 9 to 12 bits. -/
structure IsSane (d : Decoder) : Prop where
  nine_le : 9 ≤ d.width
  width_le : d.width ≤ maxWidth

theorem isSane_start (early : Nat) : IsSane { early } :=
  ⟨Nat.le_refl 9, (by decide : 9 ≤ maxWidth)⟩

theorem IsSane.learn {d : Decoder} (h : d.IsSane) (word : Bytes) : (d.learn word).IsSane := by
  unfold Decoder.learn
  split
  next => exact h
  next =>
    split
    next hwide => exact ⟨Nat.le_succ_of_le h.nine_le, hwide.2⟩
    next => exact ⟨h.nine_le, h.width_le⟩

theorem IsSane.previous {d : Decoder} (h : d.IsSane) (word : Option Bytes) :
    IsSane { d with previous := word } := ⟨h.nine_le, h.width_le⟩

theorem IsSane.read {d : Decoder} (h : d.IsSane) (code : Nat) : (d.read code).1.IsSane := by
  unfold Decoder.read
  split
  · exact isSane_start d.early
  · split
    · exact h
    · split
      · split
        · exact h.previous _
        · exact h
      · split
        · split
          · exact (h.learn _).previous _
          · exact h.previous _
        · exact h.previous _

/-- Behind a word the next code has one to continue. -/
theorem previous_read (d : Decoder) (code : Nat) (word : Bytes) (h : (d.read code).2 = .word word) :
    (d.read code).1.previous ≠ none := by
  unfold Decoder.read at h ⊢
  split_ifs at h ⊢
  cases hprevious : d.previous with
  | none =>
    rw [hprevious] at h
    dsimp only at h ⊢
    cases hword : d.word? code with
    | none =>
      rw [hword] at h
      cases h
    | some word => exact Option.some_ne_none word
  | some previous =>
    rw [hprevious] at h
    dsimp only at h ⊢
    cases hword : d.nextWord? previous code with
    | none =>
      rw [hword] at h
      cases h
    | some word =>
      rw [hword] at h
      dsimp only at h ⊢
      cases hlast : word.getLast? with
      | none =>
        rw [hlast] at h
        cases h
      | some first => exact Option.some_ne_none word

/-- Where codes do not widen, the width stays until a clear code. -/
theorem width_read {d : Decoder} {code : Nat} (hclear : code ≠ clearCode)
    (hlimit : ¬d.limit ≤ d.count) : (d.read code).1.width = d.width := by
  have hlearn (word : Bytes) : (d.learn word).width = d.width := by
    unfold learn
    split
    next => rfl
    next => rw [if_neg fun hwide => hlimit hwide.1]
  unfold Decoder.read
  rw [if_neg hclear]
  split
  · rfl
  · split
    · split <;> rfl
    · split
      · split
        · exact hlearn _
        · rfl
      · rfl

/-- No word is empty, and none is longer by more than a byte than the one before it in the table. -/
structure HasShortWords (d : Decoder) : Prop where
  size : d.count ≤ 1 <<< maxWidth
  words : ∀ i word, d.words[i]? = some word → word ≠ [] ∧ word.length ≤ i + 2
  previous : ∀ word, d.previous = some word → word.length ≤ d.words.size + 1

section
variable {d : Decoder}

theorem hasShortWords_start (early : Nat) : HasShortWords { early } := by
  refine ⟨(by decide : firstCode ≤ 1 <<< maxWidth), ?_, nofun⟩
  intro i word hword
  simp at hword

theorem HasShortWords.word? (h : d.HasShortWords) {code : Nat} {word : Bytes}
    (hword : d.word? code = some word) : word ≠ [] ∧ word.length ≤ d.words.size + 1 := by
  unfold Decoder.word? at hword
  split_ifs at hword
  · cases hword
    exact ⟨List.cons_ne_nil _ _, Nat.le_add_left 1 _⟩
  · have hplace := (Array.getElem?_eq_some_iff.1 hword).1
    obtain ⟨hsome, hlength⟩ := h.words _ word hword
    exact ⟨hsome, by omega⟩

theorem HasShortWords.forget (h : d.HasShortWords) : HasShortWords { d with previous := none } :=
  ⟨h.size, h.words, nofun⟩

theorem HasShortWords.recall (h : d.HasShortWords) {word : Bytes}
    (hword : word.length ≤ d.words.size + 1) : HasShortWords { d with previous := some word } := by
  refine ⟨h.size, h.words, ?_⟩
  rintro _ ⟨⟩
  exact hword

/-- The table learns a word that continues `previous`; then `word` becomes the previous one. -/
theorem HasShortWords.learn (h : d.HasShortWords) {previous word : Bytes} {code : Nat}
    (hprevious : d.previous = some previous) (hword : d.nextWord? previous code = some word)
    (first : UInt8) :
    HasShortWords { d.learn (first :: previous) with previous := some word } ∧
      word.length ≤ (d.learn (first :: previous)).words.size + 1 := by
  have hshort := h.previous previous hprevious
  unfold Decoder.learn
  split
  next hfull =>
    have hknown : word.length ≤ d.words.size + 1 := by
      rw [nextWord?, if_neg fun hnext => absurd hnext.2 (Nat.not_lt.2 hfull)] at hword
      exact (h.word? hword).2
    exact ⟨h.recall hknown, hknown⟩
  next hroom =>
    have hnext : word.length ≤ d.words.size + 2 := by
      unfold nextWord? at hword
      split at hword
      · obtain ⟨b, -, rfl⟩ := Option.map_eq_some_iff.1 hword
        exact Nat.succ_le_succ hshort
      · exact Nat.le_succ_of_le (h.word? hword).2
    have hwords : ∀ i word, (d.words.push (first :: previous))[i]? = some word →
        word ≠ [] ∧ word.length ≤ i + 2 := by
      intro i word hget
      rw [Array.getElem?_push] at hget
      split at hget
      next hlast =>
        cases hget
        rw [hlast]
        exact ⟨List.cons_ne_nil first previous, Nat.succ_le_succ hshort⟩
      next => exact h.words i word hget
    have hcount : firstCode + (d.words.size + 1) ≤ 1 <<< maxWidth := by
      unfold count at hroom
      omega
    dsimp only
    refine ⟨⟨?_, ?_, ?_⟩, ?_⟩
    · show firstCode + (Array.push _ _).size ≤ _
      rwa [Array.size_push]
    · split <;> exact hwords
    · rintro _ ⟨⟩
      rwa [Array.size_push]
    · rwa [Array.size_push]

theorem HasShortWords.read (h : d.HasShortWords) (code : Nat) :
    (d.read code).1.HasShortWords ∧
      ∀ word, (d.read code).2 = .word word →
        word ≠ [] ∧ word.length ≤ (d.read code).1.words.size + 1 := by
  unfold Decoder.read
  split_ifs
  · exact ⟨hasShortWords_start d.early, nofun⟩
  · exact ⟨h, nofun⟩
  · cases hprevious : d.previous with
    | none =>
      dsimp only
      cases hword : d.word? code with
      | none => exact ⟨h, nofun⟩
      | some word =>
        refine ⟨h.recall (h.word? hword).2, ?_⟩
        rintro _ ⟨⟩
        exact h.word? hword
    | some previous =>
      dsimp only
      cases hword : d.nextWord? previous code with
      | none => exact ⟨h.forget, nofun⟩
      | some word =>
        dsimp only
        cases hlast : word.getLast? with
        | none => exact ⟨h.forget, nofun⟩
        | some first =>
          obtain ⟨hlearn, hlength⟩ := h.learn hprevious hword first
          refine ⟨hlearn, ?_⟩
          rintro _ ⟨⟩
          refine ⟨?_, hlength⟩
          rintro rfl
          cases hlast

end

end PdfStream.Lzw.Decoder

namespace PdfStream.Lzw

/-- A code of a stream: how many bits it has, and what it stands for. -/
structure Code where
  width : Nat
  meaning : Meaning
  deriving DecidableEq, Repr

/-- Other codes may follow. -/
def Meaning.goesOn : Meaning → Bool
  | .word _ | .clear => true
  | .finish | .invalid => false

/-- All the data that codes stand for; the end code must be there. -/
def spell : List Code → Option Bytes
  | [] => none
  | ⟨_, .word reversed⟩ :: codes => (spell codes).map (reversed.reverse ++ ·)
  | ⟨_, .clear⟩ :: codes => spell codes
  | ⟨_, .finish⟩ :: _ => some []
  | ⟨_, .invalid⟩ :: _ => none

namespace Decoder

/-- Reads the code in front of a string of bits. -/
def readFront (d : Decoder) (bits : List Bool) : Decoder × Meaning :=
  d.read (Bits.ofHighFirst (bits.take d.width))

/-- The codes of a string of bits, up to one that no other can follow. -/
def codes (d : Decoder) (bits : List Bool) : List Code :=
  if bits.length < d.width then []
  else
    let next := d.readFront bits
    ⟨d.width, next.2⟩ :: if next.2.goesOn then codes next.1 (bits.drop d.width) else []
termination_by bits.length
decreasing_by
  have := d.width_pos
  rw [List.length_drop]
  omega

/-- All the data that a string of bits stands for. -/
def scan (d : Decoder) (bits : List Bool) : Option Bytes := spell (d.codes bits)

theorem codes_of_short {d : Decoder} {bits : List Bool} (h : bits.length < d.width) :
    d.codes bits = [] := by
  rw [codes, if_pos h]

theorem scan_of_short {d : Decoder} {bits : List Bool} (h : bits.length < d.width) :
    d.scan bits = none := by
  rw [scan, codes_of_short h, spell]

theorem codes_append {d : Decoder} {bits : List Bool} (h : d.width ≤ bits.length)
    (more : List Bool) : d.codes (bits ++ more) = ⟨d.width, (d.readFront bits).2⟩ ::
      if (d.readFront bits).2.goesOn then
        (d.readFront bits).1.codes (bits.drop d.width ++ more)
      else [] := by
  have henough : ¬(bits ++ more).length < d.width := by
    rw [List.length_append]
    omega
  have hfront : d.readFront (bits ++ more) = d.readFront bits := by
    rw [readFront, readFront, List.take_append_of_le_length h]
  rw [codes, if_neg henough, hfront, List.drop_append_of_le_length h]

/-- More bits only add codes. -/
theorem exists_codes_append (d : Decoder) (bits more : List Bool) :
    ∃ later, d.codes (bits ++ more) = d.codes bits ++ later := by
  fun_induction codes d bits with
  | case1 d bits hshort => exact ⟨_, (List.nil_append _).symm⟩
  | case2 d bits hlong next ih =>
    obtain ⟨later, hlater⟩ := ih
    rw [codes_append (Nat.le_of_not_lt hlong)]
    show ∃ later', _ :: (if next.2.goesOn then next.1.codes _ else []) =
      _ :: (if next.2.goesOn then _ else []) ++ later'
    split
    next => exact ⟨later, by rw [hlater, List.cons_append]⟩
    next => exact ⟨[], (List.append_nil _).symm⟩

/-- Bits behind the end code bring no codes. -/
theorem codes_append_of_scan {d : Decoder} {bits : List Bool} (h : d.scan bits ≠ none)
    (more : List Bool) : d.codes (bits ++ more) = d.codes bits := by
  revert h
  unfold scan
  fun_induction codes d bits with
  | case1 d bits hshort => exact fun h => absurd rfl h
  | case2 d bits hlong next ih =>
    intro h
    rw [codes_append (Nat.le_of_not_lt hlong)]
    show _ :: (if next.2.goesOn then next.1.codes _ else []) = _
    cases hmeaning : next.2 with
    | word reversed =>
      simp only [hmeaning, Meaning.goesOn, ↓reduceIte, spell, ne_eq, Option.map_eq_none_iff] at h ⊢
      rw [ih h]
    | clear =>
      simp only [hmeaning, Meaning.goesOn, ↓reduceIte, spell] at h ⊢
      rw [ih h]
    | finish | invalid => rfl

theorem IsSane.codes {d : Decoder} (h : d.IsSane) (bits : List Bool) :
    ∀ code ∈ d.codes bits, 9 ≤ code.width := by
  fun_induction Decoder.codes d bits with
  | case1 d bits hshort => exact nofun
  | case2 d bits hlong next ih =>
    intro code hmem
    rcases List.mem_cons.1 hmem with rfl | hlater
    · exact h.nine_le
    · split at hlater
      next => exact ih (h.read _) code hlater
      next => cases hlater

/-- The words of a stream are not empty and fit in a piece. -/
theorem HasShortWords.codes {d : Decoder} (h : d.HasShortWords) (bits : List Bool) :
    ∀ width word, ⟨width, .word word⟩ ∈ d.codes bits →
      word ≠ [] ∧ word.length ≤ 1 <<< maxWidth := by
  fun_induction Decoder.codes d bits with
  | case1 d bits hshort => exact nofun
  | case2 d bits hlong next ih =>
    obtain ⟨hnext, hwords⟩ := h.read (Bits.ofHighFirst (bits.take d.width))
    intro width word hmem
    rcases List.mem_cons.1 hmem with hfirst | hlater
    · obtain ⟨hsome, hlength⟩ := hwords word (congrArg Code.meaning hfirst).symm
      have hsize := hnext.size
      refine ⟨hsome, Nat.le_trans hlength ?_⟩
      unfold count firstCode at hsize
      omega
    · split at hlater
      next => exact ih hnext width word hlater
      next => cases hlater

/-- Bits behind the end code do not show. -/
theorem isSettled_scan (d : Decoder) : IsSettled d.scan := by
  intro bits out hout more
  have hsome : d.scan bits ≠ none := by simp [hout]
  rw [scan, codes_append_of_scan hsome]
  exact hout

end Decoder
end PdfStream.Lzw
