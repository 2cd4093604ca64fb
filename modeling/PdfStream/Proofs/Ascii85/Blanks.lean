import PdfStream.Proofs.Ascii85.Grammar
import PdfStream.Proofs.Codec.Delimited

/-!
Blanks in an ASCII85 text. They may stand in front of it, within groups and between them, so that
lines can be broken there. The two characters of a mark stay together: the reader looks at the very
next character behind the first one, and a blank is not it.
-/
namespace PdfStream.Ascii85

/-- `text` with `gaps n` put in before place n. -/
def spread : (gaps : Nat → Bytes) → (text : Bytes) → Bytes
  | gaps, [] => gaps 0
  | gaps, b :: text => gaps 0 ++ b :: spread (fun n => gaps (n + 1)) text

/-- One gap is an insertion. -/
theorem spread_single {text : Bytes} {n : Nat} (hn : n ≤ text.length) (blanks : Bytes) :
    spread (fun m => if m = n then blanks else []) text = text.take n ++ blanks ++ text.drop n := by
  have hnone (text : Bytes) : spread (fun _ => []) text = text := by
    induction text with
    | nil => rfl
    | cons b text ih => simp [spread, ih]
  induction text generalizing n with
  | nil =>
    obtain rfl := Nat.le_zero.1 hn
    simp [spread]
  | cons b text ih =>
    cases n with
    | zero => simp [spread, hnone]
    | succ n => simp [spread, ih (Nat.le_of_succ_le_succ hn)]

/-- The first character that is no blank. -/
def firstPlace (text : Bytes) : Nat := text.findIdx fun b => !isPdfBlank b

/-- The body, behind the opening mark if there is one. -/
def bodyPlace (text : Bytes) : Nat :=
  if [0x3C, 0x7E] <+: text.drop (firstPlace text) then firstPlace text + 2 else firstPlace text

/-- The `~` of the end mark; the end of a text without one. -/
def endPlace (text : Bytes) : Nat := bodyPlace text + (text.drop (bodyPlace text)).idxOf 0x7E

/-- Between the two characters of the opening mark, or behind the first one of the end mark. -/
def InMark (text : Bytes) (n : Nat) : Prop :=
  firstPlace text < n ∧ n < bodyPlace text ∨ endPlace text < text.length ∧ n = endPlace text + 1

instance (text : Bytes) (n : Nat) : Decidable (InMark text n) :=
  inferInstanceAs (Decidable (_ ∨ _))

theorem not_inMark_nil (n : Nat) : ¬InMark [] n := by
  simp [InMark, bodyPlace, firstPlace]

theorem inMark_blank_iff {b : UInt8} (hb : isPdfBlank b = true) {text : Bytes} {n : Nat} :
    InMark (b :: text) n ↔ ∃ m, n = m + 1 ∧ InMark text m := by
  have hfirst : firstPlace (b :: text) = firstPlace text + 1 := by
    simp [firstPlace, List.findIdx_cons, hb]
  have hbody : bodyPlace (b :: text) = bodyPlace text + 1 := by
    simp only [bodyPlace, hfirst, List.drop_succ_cons]
    split_ifs <;> rfl
  have hend : endPlace (b :: text) = endPlace text + 1 := by
    simp only [endPlace, hbody, List.drop_succ_cons]
    omega
  simp only [InMark, hfirst, hbody, hend, List.length_cons]
  constructor
  · intro h
    exact ⟨n - 1, by omega, by omega⟩
  · rintro ⟨m, rfl, h⟩
    omega

section
variable {b : UInt8} {text : Bytes}

theorem firstPlace_front (hb : isPdfBlank b = false) : firstPlace (b :: text) = 0 := by
  simp [firstPlace, List.findIdx_cons, hb]

theorem inMark_opening_iff {n : Nat} : InMark (0x3C :: 0x7E :: text) n ↔
    n = 1 ∨ 0x7E ∈ text ∧ n = text.idxOf 0x7E + 3 := by
  have hfirst : firstPlace (0x3C :: 0x7E :: text) = 0 := firstPlace_front rfl
  have hbody : bodyPlace (0x3C :: 0x7E :: text) = 2 := by
    simp [bodyPlace, hfirst]
  have hend : endPlace (0x3C :: 0x7E :: text) = text.idxOf 0x7E + 2 := by
    simp [endPlace, hbody, Nat.add_comm]
  simp only [InMark, hfirst, hbody, hend, List.length_cons, ← List.idxOf_lt_length_iff]
  omega

theorem inMark_plain_iff (hb : isPdfBlank b = false) (hmark : ¬[0x3C, 0x7E] <+: b :: text)
    {n : Nat} : InMark (b :: text) n ↔ 0x7E ∈ b :: text ∧ n = (b :: text).idxOf 0x7E + 1 := by
  have hfirst : firstPlace (b :: text) = 0 := firstPlace_front hb
  have hbody : bodyPlace (b :: text) = 0 := by
    simp only [bodyPlace, hfirst, List.drop_zero, if_neg hmark]
  have hend : endPlace (b :: text) = (b :: text).idxOf 0x7E := by
    simp [endPlace, hbody]
  simp only [InMark, hfirst, hbody, hend, ← List.idxOf_lt_length_iff]
  omega

end

section
variable {gaps : Nat → Bytes} {front text data : Bytes}

/-- What does not see one blank in front does not see any number of them. -/
theorem skip_blanks {P : Bytes → Prop}
    (h : ∀ b, isPdfBlank b = true → ∀ text, P (b :: text) ↔ P text) {blanks : Bytes}
    (hblanks : ∀ b ∈ blanks, isPdfBlank b = true) : P (blanks ++ text) ↔ P text := by
  induction blanks with
  | nil => rfl
  | cons b blanks ih =>
    obtain ⟨hb, hrest⟩ := List.forall_mem_cons.1 hblanks
    rw [List.cons_append, h b hb, ih hrest]

theorem continues_blanks_iff {blanks : Bytes} (h : ∀ b ∈ blanks, isPdfBlank b = true) :
    Continues front (blanks ++ text) data ↔ Continues front text data :=
  skip_blanks (P := (Continues front · data)) (fun _ hb _ => continues_blank_iff hb) h

theorem isText_blanks_iff {blanks : Bytes} (h : ∀ b ∈ blanks, isPdfBlank b = true) :
    IsText (blanks ++ text) data ↔ IsText text data :=
  skip_blanks (P := (IsText · data)) (fun _ hb _ => isText_blank_iff hb) h

/-- Only without a gap in front does the text go on with the same character. -/
theorem head_spread_iff (hgap : ∀ b ∈ gaps 0, isPdfBlank b = true) {c : UInt8}
    (hc : isPdfBlank c = false) :
    (∃ rest, spread gaps text = c :: rest) ↔ gaps 0 = [] ∧ ∃ rest, text = c :: rest := by
  cases hgaps : gaps 0 with
  | nil => cases text <;> simp [spread, hgaps]
  | cons b blanks =>
    have hb : b ≠ c := by
      rintro rfl
      simp [hgaps, hc] at hgap
    cases text <;> simp [spread, hgaps, hb]

/-- By induction on the text. A blank behind the first half of the end mark is not the second half.
Any other is skipped. -/
theorem continues_spread_iff (hgaps : ∀ n, ∀ b ∈ gaps n, isPdfBlank b = true) :
    Continues front (spread gaps text) data ↔
      Continues front text data ∧ (0x7E ∈ text → gaps (text.idxOf 0x7E + 1) = []) := by
  induction text generalizing gaps front with
  | nil =>
    have hblanks : Continues front (gaps 0 ++ []) data ↔ Continues front [] data :=
      continues_blanks_iff (hgaps 0)
    simpa [spread] using hblanks
  | cons b text ih =>
    have hrest := fun n => hgaps (n + 1)
    rw [spread, continues_blanks_iff (hgaps 0)]
    by_cases hb : b = 0x7E
    · subst hb
      have hnil : spread (fun n => gaps (n + 1)) text = [] ↔ gaps 1 = [] ∧ text = [] := by
        cases text <;> simp [spread]
      have hclose : (∃ rest, spread (fun n => gaps (n + 1)) text = 0x3E :: rest) ↔
          gaps 1 = [] ∧ ∃ rest, text = 0x3E :: rest :=
        head_spread_iff (hrest 0) rfl
      simp only [continues_mark_iff, hnil, hclose, List.mem_cons_self, List.idxOf_cons_self]
      tauto
    · have hmem : 0x7E ∈ b :: text ↔ 0x7E ∈ text := by simp [Ne.symm hb]
      have hplace : (b :: text).idxOf 0x7E = text.idxOf 0x7E + 1 := List.idxOf_cons_ne _ hb
      simp only [continues_cons_iff, isEnd_cons_iff, hb, false_and, or_false, ih hrest, hmem,
        hplace]
      tauto

theorem isText_opening_iff : IsText (0x3C :: 0x7E :: text) data ↔ Continues [] text data := by
  rw [isText_front_iff (by simp; decide)]
  simp [not_continues_opening]

theorem isText_plain_iff {b : UInt8} (hb : isPdfBlank b = false)
    (hmark : ¬[0x3C, 0x7E] <+: b :: text) :
    IsText (b :: text) data ↔ Continues [] (b :: text) data := by
  have hnone : ¬∃ tail, b :: text = 0x3C :: 0x7E :: tail ∧ Continues [] tail data := by
    rintro ⟨tail, htext, -⟩
    exact hmark ⟨tail, htext.symm⟩
  rw [isText_front_iff (by simpa using hb), or_iff_left hnone]

/-- With a blank within it the opening mark is a digit, and an end mark that has no `>`. -/
theorem not_isText_parted {blanks : Bytes} (h : ∀ b ∈ blanks, isPdfBlank b = true)
    (hne : blanks ≠ []) : ¬IsText (0x3C :: (blanks ++ 0x7E :: text)) data := by
  have hmark : ¬[0x3C, 0x7E] <+: 0x3C :: (blanks ++ 0x7E :: text) := by
    cases blanks with
    | nil => exact absurd rfl hne
    | cons b blanks =>
      have hb := (isPdfBlank_cases (h b List.mem_cons_self)).2
      simp [List.cons_prefix_cons, hb.symm]
  rw [isText_plain_iff rfl hmark, continues_char_iff (by unfold IsTextChar; decide),
    continues_blanks_iff h, ← continues_char_iff (by unfold IsTextChar; decide)]
  exact not_continues_opening text data

theorem isText_spread_opening_iff (hgaps : ∀ n, ∀ b ∈ gaps n, isPdfBlank b = true) :
    IsText (spread gaps (0x3C :: 0x7E :: text)) data ↔ IsText (0x3C :: 0x7E :: text) data ∧
      ∀ n, InMark (0x3C :: 0x7E :: text) n → gaps n = [] := by
  have hspread : spread gaps (0x3C :: 0x7E :: text) =
      gaps 0 ++ 0x3C :: (gaps 1 ++ 0x7E :: spread (fun n => gaps (n + 2)) text) := rfl
  rw [hspread, isText_blanks_iff (hgaps 0)]
  by_cases hgap : gaps 1 = []
  · rw [hgap, List.nil_append, isText_opening_iff, isText_opening_iff,
      continues_spread_iff fun n => hgaps (n + 2)]
    simp [inMark_opening_iff, hgap]
  · constructor
    · intro h
      exact absurd h (not_isText_parted (hgaps 1) hgap)
    · rintro ⟨-, h⟩
      exact absurd (h 1 (inMark_opening_iff.2 (.inl rfl))) hgap

theorem isText_spread_plain_iff (hgaps : ∀ n, ∀ b ∈ gaps n, isPdfBlank b = true) {b : UInt8}
    (hb : isPdfBlank b = false) (hmark : ¬[0x3C, 0x7E] <+: b :: text) :
    IsText (spread gaps (b :: text)) data ↔
      IsText (b :: text) data ∧ ∀ n, InMark (b :: text) n → gaps n = [] := by
  have hspread : spread gaps (b :: text) = gaps 0 ++ b :: spread (fun n => gaps (n + 1)) text := rfl
  have hmark' : ¬[0x3C, 0x7E] <+: b :: spread (fun n => gaps (n + 1)) text := by
    rintro ⟨tail, htext⟩
    obtain ⟨rfl, hnext⟩ := List.cons_eq_cons.1 htext
    obtain ⟨-, rest, rfl⟩ := (head_spread_iff (hgaps 1) rfl).1 ⟨tail, hnext.symm⟩
    exact hmark ⟨rest, rfl⟩
  rw [hspread, isText_blanks_iff (hgaps 0), isText_plain_iff hb hmark', isText_plain_iff hb hmark,
    ← continues_blanks_iff (hgaps 0), ← hspread, continues_spread_iff hgaps]
  simp [inMark_plain_iff hb hmark]

/-- Spread with blanks a text stays what it is, or becomes none if a mark is parted. -/
theorem isText_spread_iff (hgaps : ∀ n, ∀ b ∈ gaps n, isPdfBlank b = true) :
    IsText (spread gaps text) data ↔
      IsText text data ∧ ∀ n, InMark text n → gaps n = [] := by
  induction text generalizing gaps with
  | nil =>
    have hblanks : IsText (gaps 0 ++ []) data ↔ IsText [] data := isText_blanks_iff (hgaps 0)
    rw [List.append_nil] at hblanks
    simp [spread, hblanks, not_inMark_nil]
  | cons b text ih =>
    by_cases hb : isPdfBlank b = true
    · have hplaces : (∀ n, InMark (b :: text) n → gaps n = []) ↔
          ∀ n, InMark text n → gaps (n + 1) = [] := by
        simp only [inMark_blank_iff hb]
        constructor
        · intro h n hn
          exact h _ ⟨n, rfl, hn⟩
        · rintro h _ ⟨n, rfl, hn⟩
          exact h n hn
      rw [spread, isText_blanks_iff (hgaps 0), isText_blank_iff hb, isText_blank_iff hb,
        ih fun n => hgaps (n + 1), hplaces]
    · rw [Bool.not_eq_true] at hb
      by_cases hmark : [0x3C, 0x7E] <+: b :: text
      · obtain ⟨tail, htext⟩ := hmark
        obtain ⟨rfl, rfl⟩ := List.cons_eq_cons.1 htext
        exact isText_spread_opening_iff hgaps
      · exact isText_spread_plain_iff hgaps hb hmark

end

theorem output?_session_decode_iff (c : Ascii85) (ctx : CryptoContext)
    (parms : Option DecodeParms) (blocks : List Bytes) {data : Bytes} :
    ((Codec.ascii85 c).session .decode ctx parms blocks).output? = some data ↔
      IsText blocks.flatten data := by
  rw [c.decode_makes ctx parms blocks]
  exact decoded_iff_isText

section
variable {blocks blocks' : List Bytes} {data : Bytes} {gaps : Nat → Bytes}

/-- Blanks may be put in at any places of a text that decodes, except within its marks: that makes
decoding fail. -/
theorem session_decode_spread (c c' : Ascii85) (ctx ctx' : CryptoContext)
    (parms parms' : Option DecodeParms)
    (h : ((Codec.ascii85 c).session .decode ctx parms blocks).output? = some data)
    (hgaps : ∀ n, ∀ b ∈ gaps n, isPdfBlank b = true)
    (hblocks' : blocks'.flatten = spread gaps blocks.flatten) :
    ((∀ n, InMark blocks.flatten n → gaps n = []) →
      ((Codec.ascii85 c').session .decode ctx' parms' blocks').output? = some data) ∧
    ∀ n, InMark blocks.flatten n → gaps n ≠ [] →
      ∃ fault, ((Codec.ascii85 c').session .decode ctx' parms' blocks').fault =
        some (.decode fault) := by
  simp only [output?_session_decode_iff] at h ⊢
  rw [hblocks']
  constructor
  · intro hwhole
    exact (isText_spread_iff hgaps).2 ⟨h, hwhole⟩
  · intro n hn hgap
    rw [Codec.exists_fault_session_iff rfl]
    rintro ⟨data', hdata'⟩
    rw [output?_session_decode_iff, hblocks'] at hdata'
    exact hgap (((isText_spread_iff hgaps).1 hdata').2 n hn)

/-- `<~9jqo~>`, with a line break behind the first two digits. -/
theorem session_decode_spread_wrapped :
    ((Codec.ascii85 {}).session .decode {} none
        [[0x3C, 0x7E, 0x39, 0x6A, 0x71, 0x6F, 0x7E, 0x3E]]).output? = some [0x4D, 0x61, 0x6E] ∧
      ((Codec.ascii85 {}).session .decode {} none
        [[0x3C, 0x7E, 0x39, 0x6A], [0x0D, 0x0A, 0x71, 0x6F, 0x7E, 0x3E]]).output? =
          some [0x4D, 0x61, 0x6E] := by
  have hdecoded : ((Codec.ascii85 {}).session .decode {} none
      [[0x3C, 0x7E, 0x39, 0x6A, 0x71, 0x6F, 0x7E, 0x3E]]).output? = some [0x4D, 0x61, 0x6E] := by
    decide +kernel
  have hgaps (n : Nat) : ∀ b ∈ (if n = 4 then [0x0D, 0x0A] else [] : Bytes),
      isPdfBlank b = true := by
    split_ifs
    · exact List.all_eq_true.1 rfl
    · exact List.forall_mem_nil _
  have hblocks' : ([[0x3C, 0x7E, 0x39, 0x6A], [0x0D, 0x0A, 0x71, 0x6F, 0x7E, 0x3E]] :
      List Bytes).flatten = spread (fun n => if n = 4 then [0x0D, 0x0A] else [])
        [[0x3C, 0x7E, 0x39, 0x6A, 0x71, 0x6F, 0x7E, 0x3E]].flatten := by
    rw [spread_single]
    · rfl
    · decide
  refine ⟨hdecoded, (session_decode_spread {} {} {} {} none none hdecoded hgaps hblocks').1 ?_⟩
  intro n hn
  refine if_neg ?_
  rintro rfl
  exact absurd hn (by decide)

/-- `9jqo~>`, with a line break behind the `~`. -/
theorem session_decode_spread_parted :
    ((Codec.ascii85 {}).session .decode {} none
        [[0x39, 0x6A, 0x71, 0x6F, 0x7E, 0x3E]]).output? = some [0x4D, 0x61, 0x6E] ∧
      isPdfBlank 0x0A = true ∧
      spread (fun n => if n = 5 then [0x0A] else []) [0x39, 0x6A, 0x71, 0x6F, 0x7E, 0x3E] =
        [0x39, 0x6A, 0x71, 0x6F, 0x7E, 0x0A, 0x3E] ∧
      ((Codec.ascii85 {}).session .decode {} none
        [[0x39, 0x6A, 0x71, 0x6F, 0x7E, 0x0A, 0x3E]]).fault =
          some (.decode (.base85Close 0x0A)) := by
  decide +kernel

end

end PdfStream.Ascii85
