import PdfStream.Proofs.Codec

/-!
The text that an ASCII85 session writes. In front of the end mark stand digits and `z` only, and
never what a reader would take for the opening mark.
-/
namespace PdfStream.Ascii85

/-- The characters of groups: digits, and `z` for four zero bytes. -/
def IsTextChar (b : UInt8) : Prop := (0x21 ≤ b ∧ b ≤ 0x75) ∨ b = 0x7A

theorem isTextChar_digits (count n : Nat) : ∀ b ∈ digits count n, IsTextChar b := by
  intro b hb
  rw [digits_eq_map] at hb
  obtain ⟨d, hd, rfl⟩ := List.mem_map.1 hb
  have hrange := (char_digit d (areDigits_baseDigits count n d hd)).2.2.2.1
  exact .inl hrange

theorem isTextChar_encodeGroup (group : Bytes) : ∀ b ∈ encodeGroup group, IsTextChar b := by
  unfold encodeGroup
  split
  · simp [IsTextChar]
  · exact isTextChar_digits 5 _

theorem isTextChar_textOf (data : Bytes) : ∀ b ∈ textOf data, IsTextChar b := by
  fun_induction textOf data with
  | case1 a b c d rest ih =>
    intro e he
    rcases List.mem_append.1 he with hgroup | hrest
    · exact isTextChar_encodeGroup _ e hgroup
    · exact ih e hrest
  | case2 => simp
  | case3 short _ _ =>
    intro e he
    exact isTextChar_digits 5 _ e (List.mem_of_mem_take he)

theorem length_digits (count n : Nat) : (digits count n).length = count := by
  rw [digits_eq_map, List.length_map, length_baseDigits]

/-- Text that is not empty starts with `z` or has a second character: no group is written as one
digit. -/
theorem textOf_front (data : Bytes) :
    textOf data = [] ∨ (∃ rest, textOf data = 0x7A :: rest) ∨ 2 ≤ (textOf data).length := by
  fun_cases textOf data with
  | case1 a b c d rest =>
    unfold encodeGroup
    split
    · exact .inr (.inl ⟨textOf rest, rfl⟩)
    · right; right
      simp [length_digits]
      omega
  | case2 => exact .inl rfl
  | case3 short _ hne =>
    have hpos := List.length_pos_iff.2 hne
    right; right
    simp only [shortText, List.length_take, length_digits]
    omega

/-- A second character of text is no `~`, so that no opening mark can stand there. -/
theorem not_opening_textOf (data : Bytes) : ¬[0x3C, 0x7E] <+: textOf data ++ eod := by
  have hchars := isTextChar_textOf data
  intro hopening
  rcases textOf_front data with hnil | ⟨rest, hzero⟩ | hlong
  · rw [hnil] at hopening
    revert hopening
    decide
  · rw [hzero] at hopening
    have hfirst := List.cons_prefix_cons.1 hopening
    exact absurd hfirst.1 (by decide)
  · match htext : textOf data, hlong with
    | b :: b' :: rest, _ =>
      rw [htext] at hopening hchars
      simp only [List.cons_append, List.cons_prefix_cons] at hopening
      have hsecond : IsTextChar b' := hchars b' (by simp)
      rw [← hopening.2.1] at hsecond
      exact absurd hsecond (by unfold IsTextChar; decide)

/-- Encoding succeeds in whatever blocks. What it writes is digits and `z` up to the end mark, does
not begin with the opening mark, and reads back as the data, whatever blocks bring it. -/
theorem session_text_readsBack (c c' : Ascii85) (parms : Option DecodeParms)
    (ctx ctx' : CryptoContext) (blocks : List Bytes) :
    ∃ text, ((Codec.ascii85 c).session .encode ctx none blocks).output? = some (text ++ eod) ∧
      (∀ b ∈ text, IsTextChar b) ∧ ¬[0x3C, 0x7E] <+: text ++ eod ∧
      ∀ blocks' : List Bytes, blocks'.flatten = text ++ eod →
        ((Codec.ascii85 c').session .decode ctx' parms blocks').output? = some blocks.flatten := by
  have hencoded : encoded { c with group := [] } blocks.flatten =
      some (textOf blocks.flatten ++ eod) :=
    encoded_eq (c := { c with group := [] }) (Nat.zero_lt_succ 3) blocks.flatten
  refine ⟨textOf blocks.flatten, ?_, isTextChar_textOf _, not_opening_textOf _, ?_⟩
  · rw [encode_makes c ctx none blocks, hencoded]
  · intro blocks' hblocks
    obtain ⟨out, hout, hdata⟩ := decoded_encoded (c := { c with group := [] }) rfl blocks.flatten
    rw [hencoded] at hout
    rw [decode_makes c' ctx' parms blocks', hblocks, Option.some.inj hout, hdata]

end PdfStream.Ascii85
