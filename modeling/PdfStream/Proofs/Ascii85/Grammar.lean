import PdfStream.Proofs.Ascii85.Text
import PdfStream.Proofs.Codec.Faults

/-!
The texts that an ASCII85 session reads. They are given as a grammar: blanks, the opening mark or
none, a body whose characters form groups, and the end mark, whole, cut short or missing. The reader
accepts these texts and no others, and it does not see how they are cut into blocks.
-/
namespace PdfStream.Ascii85

/-- `text`, a body without its blanks, is a sequence of groups with at most one shorter group behind
them, and stands for `data`. -/
inductive Spells : (text data : Bytes) → Prop where
  | nil : Spells [] []
  /-- Two to four digits, filled up with the highest digit, stand for one byte less. -/
  | short (ds : Bytes) (hshort : 2 ≤ ds.length) (hlong : ds.length ≤ 4) (hds : AreDigits ds)
      (hlt : value (ds ++ List.replicate (5 - ds.length) 84) < 2 ^ 32) :
      Spells (ds.map (0x21 + ·))
        ((Bytes.ofNat 4 (value (ds ++ List.replicate (5 - ds.length) 84))).take (ds.length - 1))
  | zeros {text data : Bytes} (h : Spells text data) : Spells (0x7A :: text) ([0, 0, 0, 0] ++ data)
  | group (ds : Bytes) {text data : Bytes} (hlength : ds.length = 5) (hds : AreDigits ds)
      (hlt : value ds < 2 ^ 32) (h : Spells text data) :
      Spells (ds.map (0x21 + ·) ++ text) (Bytes.ofNat 4 (value ds) ++ data)

/-- The characters of a body: groups, with blanks anywhere. -/
def IsBody (body : Bytes) : Prop := ∀ b ∈ body, isPdfBlank b = true ∨ IsTextChar b

/-- What may stand behind a body: nothing, the first half of the end mark, or the end mark and
anything. -/
def IsEnd (tail : Bytes) : Prop := tail = [] ∨ tail = [0x7E] ∨ ∃ rest, tail = eod ++ rest

def withoutBlanks (body : Bytes) : Bytes := body.filter fun b => !isPdfBlank b

/-- `text` is an ASCII85 text that stands for `data`. -/
def IsText (text data : Bytes) : Prop :=
  ∃ blanks mark body tail, text = blanks ++ mark ++ body ++ tail ∧
    (∀ b ∈ blanks, isPdfBlank b = true) ∧ (mark = [] ∨ mark = [0x3C, 0x7E]) ∧
    IsBody body ∧ IsEnd tail ∧ Spells (withoutBlanks body) data

/-- `text` is the rest of a body that began with `front`, and an end; all of it stands for `data`. -/
def Continues (front text data : Bytes) : Prop :=
  ∃ body tail, text = body ++ tail ∧ IsBody body ∧ IsEnd tail ∧
    Spells (front ++ withoutBlanks body) data

theorem map_char_injective : Function.Injective (List.map (0x21 + · : UInt8 → UInt8)) := by
  apply List.map_injective_iff.2
  intro d d' h
  exact (UInt8.add_right_inj 0x21).1 h

theorem zero_not_mem_chars {ds : Bytes} (hds : AreDigits ds) : 0x7A ∉ ds.map (0x21 + ·) := by
  intro hmem
  obtain ⟨d, hd, hchar⟩ := List.mem_map.1 hmem
  exact (char_digit d (hds d hd)).2.2.1 hchar

/-- No mark and no blank is a character of a group. -/
theorem isTextChar_cases {b : UInt8} (h : IsTextChar b) :
    isPdfBlank b = false ∧ b ≠ 0x7E ∧ (b = 0x7A ∨ (b - 0x21).toNat < 85) := by
  revert b
  unfold IsTextChar
  apply forall_byte
  decide +kernel

theorem isPdfBlank_cases {b : UInt8} (h : isPdfBlank b = true) : b ≠ 0x3C ∧ b ≠ 0x7E := by
  revert b
  apply forall_byte
  decide +kernel

theorem char_sub (b : UInt8) : 0x21 + (b - 0x21) = b := by
  rw [UInt8.add_comm, UInt8.sub_add_cancel]

/-- Digits alone are one short group, or none. -/
theorem spells_chars_iff {ds : Bytes} (hds : AreDigits ds) (hlength : ds.length < 5)
    {data : Bytes} : Spells (ds.map (0x21 + ·)) data ↔ ds = [] ∧ data = [] ∨
      2 ≤ ds.length ∧ value (ds ++ List.replicate (5 - ds.length) 84) < 2 ^ 32 ∧
        data = (Bytes.ofNat 4 (value (ds ++ List.replicate (5 - ds.length) 84))).take
          (ds.length - 1) := by
  constructor
  · intro h
    generalize htext : ds.map (0x21 + ·) = text at h
    cases h with
    | nil => exact .inl ⟨List.map_eq_nil_iff.1 htext, rfl⟩
    | short ds' hshort hlong hds' hlt =>
      obtain rfl := map_char_injective htext
      exact .inr ⟨hshort, hlt, rfl⟩
    | zeros h =>
      have hzero : 0x7A ∈ ds.map (0x21 + ·) := by simp [htext]
      exact absurd hzero (zero_not_mem_chars hds)
    | group ds' hlength' hds' hlt h =>
      have hlengths := congrArg List.length htext
      simp only [List.length_append, List.length_map] at hlengths
      omega
  · rintro (⟨rfl, rfl⟩ | ⟨hshort, hlt, rfl⟩)
    · exact .nil
    · exact .short ds hshort (by omega) hds hlt

theorem spells_zeros_iff {text data : Bytes} :
    Spells (0x7A :: text) data ↔ ∃ rest, data = [0, 0, 0, 0] ++ rest ∧ Spells text rest := by
  constructor
  · intro h
    generalize htext : 0x7A :: text = whole at h
    cases h with
    | nil => cases htext
    | short ds hshort hlong hds hlt =>
      have hzero : 0x7A ∈ ds.map (0x21 + ·) := by simp [← htext]
      exact absurd hzero (zero_not_mem_chars hds)
    | zeros h =>
      obtain ⟨-, rfl⟩ := List.cons_eq_cons.1 htext
      exact ⟨_, rfl, h⟩
    | group ds hlength hds hlt h =>
      cases ds with
      | nil => cases hlength
      | cons d ds =>
        have hzero : 0x7A ∈ (d :: ds).map (0x21 + ·) := by simp [(List.cons_eq_cons.1 htext).1]
        exact absurd hzero (zero_not_mem_chars hds)
  · rintro ⟨rest, rfl, h⟩
    exact .zeros h

/-- `z` cannot stand within a group. -/
theorem not_spells_zeros {ds : Bytes} (hds : AreDigits ds) (hlength : ds.length < 5)
    (hne : ds ≠ []) (text data : Bytes) : ¬Spells (ds.map (0x21 + ·) ++ 0x7A :: text) data := by
  intro h
  have hzero : 0x7A ∈ (ds.map (0x21 + ·) ++ 0x7A :: text).take 5 := by
    simp [List.take_append, List.take_cons, hlength]
  generalize htext : ds.map (0x21 + ·) ++ 0x7A :: text = whole at h hzero
  cases h with
  | nil => cases hzero
  | short ds' hshort hlong hds' hlt =>
    exact zero_not_mem_chars hds' (List.mem_of_mem_take hzero)
  | zeros h =>
    cases ds with
    | nil => exact hne rfl
    | cons d ds =>
      have hfirst : 0x7A ∈ (d :: ds).map (0x21 + ·) := by simp [(List.cons_eq_cons.1 htext).1]
      exact zero_not_mem_chars hds hfirst
  | group ds' hlength' hds' hlt h =>
    rw [List.take_append_of_le_length (by simp [hlength'])] at hzero
    exact zero_not_mem_chars hds' (List.mem_of_mem_take hzero)

theorem spells_group_iff {ds : Bytes} (hds : AreDigits ds) (hlength : ds.length = 5)
    {text data : Bytes} : Spells (ds.map (0x21 + ·) ++ text) data ↔
      value ds < 2 ^ 32 ∧ ∃ rest, data = Bytes.ofNat 4 (value ds) ++ rest ∧ Spells text rest := by
  constructor
  · intro h
    generalize htext : ds.map (0x21 + ·) ++ text = whole at h
    have hlengths := congrArg List.length htext
    rw [List.length_append, List.length_map] at hlengths
    cases h with
    | nil =>
      rw [List.length_nil] at hlengths
      omega
    | short ds' hshort hlong hds' hlt =>
      rw [List.length_map] at hlengths
      omega
    | zeros h =>
      cases ds with
      | nil => cases hlength
      | cons d ds =>
        have hzero : 0x7A ∈ (d :: ds).map (0x21 + ·) := by simp [(List.cons_eq_cons.1 htext).1]
        exact absurd hzero (zero_not_mem_chars hds)
    | group ds' hlength' hds' hlt h =>
      obtain ⟨hchars, rfl⟩ := List.append_inj htext (by simp [hlength, hlength'])
      obtain rfl := map_char_injective hchars
      exact ⟨hlt, _, rfl, h⟩
  · rintro ⟨hlt, rest, rfl, h⟩
    exact .group ds hlength hds hlt h

theorem continues_nil_iff {front data : Bytes} : Continues front [] data ↔ Spells front data := by
  constructor
  · rintro ⟨body, tail, htext, -, -, h⟩
    obtain ⟨rfl, -⟩ := List.nil_eq_append_iff.1 htext
    simpa [withoutBlanks] using h
  · intro h
    exact ⟨[], [], rfl, by simp [IsBody], .inl rfl, by simpa [withoutBlanks] using h⟩

theorem isEnd_cons_iff {b : UInt8} {text : Bytes} :
    IsEnd (b :: text) ↔ b = 0x7E ∧ (text = [] ∨ ∃ rest, text = 0x3E :: rest) := by
  simp [IsEnd, eod]
  tauto

theorem continues_cons_iff {front text data : Bytes} {b : UInt8} :
    Continues front (b :: text) data ↔
      isPdfBlank b = true ∧ Continues front text data ∨
      IsTextChar b ∧ Continues (front ++ [b]) text data ∨
      IsEnd (b :: text) ∧ Spells front data := by
  constructor
  · rintro ⟨body, tail, htext, hbody, hend, h⟩
    cases body with
    | nil =>
      obtain rfl : b :: text = tail := htext
      exact .inr (.inr ⟨hend, by simpa [withoutBlanks] using h⟩)
    | cons c body =>
      obtain ⟨rfl, rfl⟩ := List.cons_eq_cons.1 htext
      have hrest : IsBody body := fun c hc => hbody c (List.mem_cons_of_mem b hc)
      rcases hbody b List.mem_cons_self with hblank | hchar
      · exact .inl ⟨hblank, body, tail, rfl, hrest, hend, by simpa [withoutBlanks, hblank] using h⟩
      · have hblank := (isTextChar_cases hchar).1
        refine .inr (.inl ⟨hchar, body, tail, rfl, hrest, hend, ?_⟩)
        simpa [withoutBlanks, hblank] using h
  · rintro (⟨hblank, body, tail, rfl, hbody, hend, h⟩ | ⟨hchar, body, tail, rfl, hbody, hend, h⟩ |
      ⟨hend, h⟩)
    · refine ⟨b :: body, tail, rfl, ?_, hend, by simpa [withoutBlanks, hblank] using h⟩
      exact List.forall_mem_cons.2 ⟨.inl hblank, hbody⟩
    · have hblank := (isTextChar_cases hchar).1
      refine ⟨b :: body, tail, rfl, ?_, hend, by simpa [withoutBlanks, hblank] using h⟩
      exact List.forall_mem_cons.2 ⟨.inr hchar, hbody⟩
    · exact ⟨[], b :: text, rfl, by simp [IsBody], hend, by simpa [withoutBlanks] using h⟩

theorem continues_blank_iff {front text data : Bytes} {b : UInt8} (hb : isPdfBlank b = true) :
    Continues front (b :: text) data ↔ Continues front text data := by
  have hchar : ¬IsTextChar b := by
    intro h
    have hblank := (isTextChar_cases h).1
    rw [hb] at hblank
    cases hblank
  simp [continues_cons_iff, isEnd_cons_iff, hb, hchar, (isPdfBlank_cases hb).2]

theorem continues_char_iff {front text data : Bytes} {b : UInt8} (hb : IsTextChar b) :
    Continues front (b :: text) data ↔ Continues (front ++ [b]) text data := by
  obtain ⟨hblank, hmark, -⟩ := isTextChar_cases hb
  simp [continues_cons_iff, isEnd_cons_iff, hb, hblank, hmark]

theorem continues_mark_iff {front text data : Bytes} :
    Continues front (0x7E :: text) data ↔
      (text = [] ∨ ∃ rest, text = 0x3E :: rest) ∧ Spells front data := by
  have hchar : ¬IsTextChar 0x7E := by
    unfold IsTextChar
    decide
  have hblank : isPdfBlank 0x7E = false := by decide
  simp [continues_cons_iff, isEnd_cons_iff, hchar, hblank]

/-- `z` stands between groups only. -/
theorem continues_zeros_iff {ds : Bytes} (hds : AreDigits ds) (hlength : ds.length < 5)
    {text data : Bytes} : Continues (ds.map (0x21 + ·)) (0x7A :: text) data ↔ ds = [] ∧
      ∃ rest, data = [0, 0, 0, 0] ++ rest ∧ Continues [] text rest := by
  rw [continues_char_iff (.inr rfl)]
  constructor
  · rintro ⟨body, tail, htext, hbody, hend, h⟩
    rw [List.append_assoc] at h
    by_cases hnil : ds = []
    · subst hnil
      obtain ⟨rest, hdata, hrest⟩ := spells_zeros_iff.1 h
      exact ⟨rfl, rest, hdata, body, tail, htext, hbody, hend, hrest⟩
    · exact absurd h (not_spells_zeros hds hlength hnil _ _)
  · rintro ⟨rfl, rest, hdata, body, tail, htext, hbody, hend, h⟩
    exact ⟨body, tail, htext, hbody, hend, spells_zeros_iff.2 ⟨rest, hdata, h⟩⟩

theorem continues_digit_iff {ds text data : Bytes} {d : UInt8} (hd : IsTextChar (0x21 + d)) :
    Continues (ds.map (0x21 + ·)) ((0x21 + d) :: text) data ↔
      Continues ((ds ++ [d]).map (0x21 + ·)) text data := by
  rw [continues_char_iff hd, List.map_append, List.map_singleton]

theorem continues_group_iff {ds : Bytes} (hds : AreDigits ds) (hlength : ds.length = 5)
    {text data : Bytes} : Continues (ds.map (0x21 + ·)) text data ↔
      value ds < 2 ^ 32 ∧ ∃ rest, data = Bytes.ofNat 4 (value ds) ++ rest ∧
        Continues [] text rest := by
  constructor
  · rintro ⟨body, tail, htext, hbody, hend, h⟩
    obtain ⟨hlt, rest, hdata, hrest⟩ := (spells_group_iff hds hlength).1 h
    exact ⟨hlt, rest, hdata, body, tail, htext, hbody, hend, hrest⟩
  · rintro ⟨hlt, rest, hdata, body, tail, htext, hbody, hend, h⟩
    exact ⟨body, tail, htext, hbody, hend, (spells_group_iff hds hlength).2 ⟨hlt, rest, hdata, h⟩⟩

theorem decoded_cons (c : Ascii85) (b : UInt8) (text : Bytes) :
    decoded c (b :: text) = (readByte c b).output?.bind fun out =>
      (decoded (readByte c b).state text).map (out ++ ·) :=
  Step.output?_run_cons readByte endDecode c b text

theorem decoded_of_quiet {c c' : Ascii85} {b : UInt8} (h : readByte c b = .quiet c')
    (text : Bytes) : decoded c (b :: text) = decoded c' text := by
  simp [decoded_cons, h]

theorem decoded_of_stop {c c' : Ascii85} {b : UInt8} {e : Error} (h : readByte c b = .stop c' e)
    (text : Bytes) : decoded c (b :: text) = none := by
  simp [decoded_cons, h]

theorem decoded_write_iff {c c' : Ascii85} {b : UInt8} {out text data : Bytes}
    (h : readByte c b = .write c' out) :
    decoded c (b :: text) = some data ↔ ∃ rest, data = out ++ rest ∧ decoded c' text = some rest := by
  simp [decoded_cons, h, and_comm, eq_comm]

/-- Behind the end mark the reader takes anything. -/
theorem decoded_done (ds text : Bytes) : decoded ⟨ds, .done⟩ text = some [] := by
  induction text with
  | nil => rfl
  | cons b text ih =>
    have hread : readByte ⟨ds, .done⟩ b = .quiet ⟨ds, .done⟩ := rfl
    rw [decoded_of_quiet hread, ih]

theorem decodeGroup_eq (group : Bytes) : decodeGroup group =
    if value group < 2 ^ 32 then .ok (Bytes.ofNat 4 (value group))
    else .error (.decode .base85Overflow) := rfl

theorem pushDigit_of_full {c : Ascii85} (d : UInt8) (h : c.group.length = 4) : pushDigit c d =
    if value (c.group ++ [d]) < 2 ^ 32 then
      .write { c with group := [] } (Bytes.ofNat 4 (value (c.group ++ [d])))
    else .stop { c with group := c.group ++ [d] } (.decode .base85Overflow) := by
  have hfull : (c.group ++ [d]).length = 5 := by simp [h]
  simp only [pushDigit, if_pos hfull, decodeGroup_eq]
  by_cases hlt : value (c.group ++ [d]) < 2 ^ 32
  · simp only [if_pos hlt]
  · simp only [if_neg hlt]

/-- The last group is read as the grammar has it. -/
theorem output?_closeGroup_iff {ds : Bytes} (hds : AreDigits ds) (hlength : ds.length < 5)
    (marker : Marker) {data : Bytes} :
    (closeGroup ⟨ds, marker⟩).output? = some data ↔ Spells (ds.map (0x21 + ·)) data := by
  rw [spells_chars_iff hds hlength]
  match ds with
  | [] => simp [closeGroup, eq_comm]
  | [d] => simp [closeGroup]
  | d :: d' :: ds =>
    by_cases hlt :
        value (d :: d' :: ds ++ List.replicate (5 - (d :: d' :: ds).length) 84) < 2 ^ 32
    · simp only [closeGroup, decodeGroup_eq, if_pos hlt, Step.output?_write]
      constructor
      · rintro ⟨⟩
        exact .inr ⟨by simp, hlt, rfl⟩
      · rintro (⟨hnil, -⟩ | ⟨-, -, rfl⟩)
        · cases hnil
        · rfl
    · simp only [closeGroup, decodeGroup_eq, if_neg hlt, Step.output?_stop]
      constructor
      · rintro ⟨⟩
      · rintro (⟨hnil, -⟩ | ⟨-, h, -⟩)
        · cases hnil
        · exact absurd h hlt

theorem marker_closeGroup (c : Ascii85) : (closeGroup c).state.marker = c.marker := by
  unfold closeGroup
  split
  · rfl
  · rfl
  · split <;> rfl

theorem decoded_mark_iff {ds text data : Bytes} (hds : AreDigits ds) (hlength : ds.length < 5) :
    decoded ⟨ds, .body⟩ (0x7E :: text) = some data ↔
      (text = [] ∨ ∃ rest, text = 0x3E :: rest) ∧ Spells (ds.map (0x21 + ·)) data := by
  have hmark : readByte ⟨ds, .body⟩ 0x7E = .quiet ⟨ds, .closing⟩ := rfl
  rw [decoded_of_quiet hmark, ← output?_closeGroup_iff hds hlength .done]
  cases text with
  | nil => simp [decoded, endDecode]
  | cons b text =>
    by_cases hb : b = 0x3E
    · subst hb
      have hclose : readByte ⟨ds, .closing⟩ 0x3E = closeGroup ⟨ds, .done⟩ := rfl
      obtain ⟨group, hstate⟩ : ∃ group, (closeGroup ⟨ds, .done⟩).state = ⟨group, .done⟩ :=
        ⟨_, congrArg (Ascii85.mk _) (marker_closeGroup ⟨ds, .done⟩)⟩
      simp [decoded_cons, hclose, hstate, decoded_done]
    · have hclose : readByte ⟨ds, .closing⟩ b =
          .stop ⟨ds, .closing⟩ (.decode (.base85Close b)) := if_neg hb
      simp [decoded_of_stop hclose, hb]

theorem decoded_zeros_iff {ds text data : Bytes} :
    decoded ⟨ds, .body⟩ (0x7A :: text) = some data ↔ ds = [] ∧
      ∃ rest, data = [0, 0, 0, 0] ++ rest ∧ decoded ⟨[], .body⟩ text = some rest := by
  by_cases hnil : ds = []
  · subst hnil
    have hread : readByte ⟨[], .body⟩ 0x7A = .write ⟨[], .body⟩ [0, 0, 0, 0] := rfl
    rw [decoded_write_iff hread]
    simp only [true_and]
  · have hread : readByte ⟨ds, .body⟩ 0x7A =
        .stop ⟨ds, .body⟩ (.decode .base85ZeroInGroup) := if_neg hnil
    simp [decoded_of_stop hread, hnil]

theorem decoded_digit_of_short {ds : Bytes} {d : UInt8} (hd : d.toNat < 85) (h : ds.length < 4)
    (text : Bytes) :
    decoded ⟨ds, .body⟩ ((0x21 + d) :: text) = decoded ⟨ds ++ [d], .body⟩ text := by
  have hread : readByte ⟨ds, .body⟩ (0x21 + d) = pushDigit ⟨ds, .body⟩ d := readByte_digit hd
  rw [pushDigit_of_short d h] at hread
  exact decoded_of_quiet hread text

theorem decoded_digit_of_full_iff {ds text data : Bytes} {d : UInt8} (hd : d.toNat < 85)
    (h : ds.length = 4) : decoded ⟨ds, .body⟩ ((0x21 + d) :: text) = some data ↔
      value (ds ++ [d]) < 2 ^ 32 ∧ ∃ rest, data = Bytes.ofNat 4 (value (ds ++ [d])) ++ rest ∧
        decoded ⟨[], .body⟩ text = some rest := by
  have hread : readByte ⟨ds, .body⟩ (0x21 + d) = pushDigit ⟨ds, .body⟩ d := readByte_digit hd
  rw [pushDigit_of_full d h] at hread
  split at hread
  next hlt =>
    rw [decoded_write_iff hread]
    simp only [hlt, true_and]
  next hlt =>
    rw [decoded_of_stop hread]
    simp only [hlt, false_and, reduceCtorEq]

theorem decoded_of_no_char (ds : Bytes) {b : UInt8} (hblank : ¬isPdfBlank b = true)
    (hmark : b ≠ 0x7E) (hchar : ¬IsTextChar b) (text : Bytes) :
    decoded ⟨ds, .body⟩ (b :: text) = none := by
  have hrange : ¬(0x21 ≤ b ∧ b ≤ 0x75) := fun h => hchar (.inl h)
  have hzero : b ≠ 0x7A := fun h => hchar (.inr h)
  have hread : readByte ⟨ds, .body⟩ b = .stop ⟨ds, .body⟩ (.decode (.base85Character b)) := by
    simp [readByte, readBody, hblank, hmark, hzero, hrange]
  exact decoded_of_stop hread text

/-- From the body on, the reader takes what the grammar has. By induction on the text, with any digits
of an open group in front of it. -/
theorem decoded_body_iff {ds text data : Bytes} (hds : AreDigits ds) (hlength : ds.length < 5) :
    decoded ⟨ds, .body⟩ text = some data ↔ Continues (ds.map (0x21 + ·)) text data := by
  induction text generalizing ds data with
  | nil =>
    rw [continues_nil_iff, ← output?_closeGroup_iff hds hlength .done]
    simp [decoded, endDecode]
  | cons b text ih =>
    have hopen {data : Bytes} : decoded ⟨[], .body⟩ text = some data ↔ Continues [] text data :=
      ih (List.forall_mem_nil _) (by decide)
    by_cases hblank : isPdfBlank b = true
    · have hread : readByte ⟨ds, .body⟩ b = .quiet ⟨ds, .body⟩ := if_pos hblank
      rw [continues_blank_iff hblank, decoded_of_quiet hread, ih hds hlength]
    by_cases hmark : b = 0x7E
    · rw [hmark, continues_mark_iff, decoded_mark_iff hds hlength]
    by_cases hchar : IsTextChar b
    · rcases (isTextChar_cases hchar).2.2 with rfl | hd
      · rw [decoded_zeros_iff, continues_zeros_iff hds hlength]
        simp only [hopen]
      · generalize hsub : b - 0x21 = d at hd
        obtain rfl : 0x21 + d = b := by rw [← hsub, char_sub]
        have hmore := hds.concat hd
        have hcount : (ds ++ [d]).length = ds.length + 1 := by simp
        rw [continues_digit_iff hchar]
        by_cases hfull : ds.length = 4
        · rw [decoded_digit_of_full_iff hd hfull, continues_group_iff hmore (by omega)]
          simp only [hopen]
        · rw [decoded_digit_of_short hd (by omega), ih hmore (by omega)]
    · rw [decoded_of_no_char ds hblank hmark hchar]
      simp [continues_cons_iff, isEnd_cons_iff, hblank, hmark, hchar]

/-- Behind its leading blanks a text is a body and an end, or those behind the opening mark. -/
theorem isText_iff {text data : Bytes} : IsText text data ↔
    ∃ blanks rest, text = blanks ++ rest ∧ (∀ b ∈ blanks, isPdfBlank b = true) ∧
      (Continues [] rest data ∨ ∃ tail, rest = 0x3C :: 0x7E :: tail ∧ Continues [] tail data) := by
  constructor
  · rintro ⟨blanks, mark, body, tail, rfl, hblanks, hmark, hbody, hend, h⟩
    have hrest : Continues [] (body ++ tail) data := ⟨body, tail, rfl, hbody, hend, h⟩
    refine ⟨blanks, mark ++ body ++ tail, by simp, hblanks, ?_⟩
    rcases hmark with rfl | rfl
    · exact .inl hrest
    · exact .inr ⟨body ++ tail, rfl, hrest⟩
  · rintro ⟨blanks, rest, rfl, hblanks, ⟨body, tail, rfl, hbody, hend, h⟩ |
      ⟨_, rfl, body, tail, rfl, hbody, hend, h⟩⟩
    · exact ⟨blanks, [], body, tail, by simp, hblanks, .inl rfl, hbody, hend, h⟩
    · exact ⟨blanks, [0x3C, 0x7E], body, tail, by simp, hblanks, .inr rfl, hbody, hend, h⟩

theorem isText_blank_iff {b : UInt8} (hb : isPdfBlank b = true) {text data : Bytes} :
    IsText (b :: text) data ↔ IsText text data := by
  rw [isText_iff, isText_iff]
  constructor
  · rintro ⟨blanks, rest, htext, hblanks, h⟩
    cases blanks with
    | nil =>
      obtain rfl : b :: text = rest := htext
      rcases h with h | ⟨tail, hmark, -⟩
      · exact ⟨[], text, rfl, by simp, .inl ((continues_blank_iff hb).1 h)⟩
      · exact absurd (List.cons_eq_cons.1 hmark).1 (isPdfBlank_cases hb).1
    | cons c blanks =>
      obtain ⟨rfl, rfl⟩ := List.cons_eq_cons.1 htext
      exact ⟨blanks, rest, rfl, (List.forall_mem_cons.1 hblanks).2, h⟩
  · rintro ⟨blanks, rest, rfl, hblanks, h⟩
    exact ⟨b :: blanks, rest, rfl, List.forall_mem_cons.2 ⟨hb, hblanks⟩, h⟩

/-- A text that begins with no blank. -/
theorem isText_front_iff {text data : Bytes} (h : ∀ b ∈ text.head?, ¬isPdfBlank b = true) :
    IsText text data ↔
      Continues [] text data ∨ ∃ tail, text = 0x3C :: 0x7E :: tail ∧ Continues [] tail data := by
  rw [isText_iff]
  constructor
  · rintro ⟨blanks, rest, rfl, hblanks, hrest⟩
    cases blanks with
    | nil => exact hrest
    | cons b blanks => exact absurd (hblanks b List.mem_cons_self) (h b rfl)
  · intro hrest
    exact ⟨[], text, rfl, by simp, hrest⟩

/-- The first half of an opening mark would be a digit on its own. -/
theorem not_continues_opening (text data : Bytes) : ¬Continues [] (0x3C :: 0x7E :: text) data := by
  have hchar : IsTextChar 0x3C := by
    unfold IsTextChar
    decide
  have hdigit : AreDigits [0x1B] := by simp [AreDigits]
  have hfront : [] ++ [(0x3C : UInt8)] = [(0x1B : UInt8)].map (0x21 + ·) := rfl
  rw [continues_char_iff hchar, continues_mark_iff, hfront, spells_chars_iff hdigit (by decide)]
  simp

theorem decoded_front_iff {text data : Bytes} (h : ∀ b ∈ text.head?, ¬isPdfBlank b = true) :
    decoded {} text = some data ↔ IsText text data := by
  have hbody {text data : Bytes} : decoded ⟨[], .body⟩ text = some data ↔ Continues [] text data :=
    decoded_body_iff (List.forall_mem_nil _) (by decide)
  rw [isText_front_iff h]
  by_cases hmark : ∃ tail, text = 0x3C :: 0x7E :: tail
  · obtain ⟨tail, rfl⟩ := hmark
    have hfirst : readByte {} 0x3C = .quiet ⟨[], .opening⟩ := rfl
    have hsecond : readByte ⟨[], .opening⟩ 0x7E = .quiet ⟨[], .body⟩ := rfl
    rw [decoded_of_quiet hfirst, decoded_of_quiet hsecond, hbody]
    simp [not_continues_opening]
  · have hsame : decoded {} text = decoded ⟨[], .body⟩ text := by
      cases text with
      | nil => rfl
      | cons b rest =>
        by_cases hlone : b = 0x3C ∧ rest = []
        · obtain ⟨rfl, rfl⟩ := hlone
          rfl
        · apply decoded_start (h b rfl)
          rintro rfl
          cases rest with
          | nil => exact absurd ⟨rfl, rfl⟩ hlone
          | cons d tail =>
            refine ⟨d, tail, rfl, ?_⟩
            rintro rfl
            exact hmark ⟨tail, rfl⟩
    rw [hsame, hbody]
    simp only [not_exists] at hmark
    simp [hmark]

theorem decoded_iff_isText {text data : Bytes} : decoded {} text = some data ↔ IsText text data := by
  induction text with
  | nil => exact decoded_front_iff (by simp)
  | cons b text ih =>
    by_cases hb : isPdfBlank b = true
    · have hread : readByte {} b = .quiet {} := if_pos hb
      rw [decoded_of_quiet hread, isText_blank_iff hb, ih]
    · exact decoded_front_iff (by simpa using hb)

/-- The session goes byte by byte, and in nothing by the blocks. -/
theorem session_decode_eq (c : Ascii85) (ctx : CryptoContext) (parms : Option DecodeParms)
    (blocks : List Bytes) : (Codec.ascii85 c).session .decode ctx parms blocks =
      ((Step.run readByte {} blocks.flatten).andThen endDecode).map .ascii85 := by
  have hblocks := Step.map_run (fun (s : Ascii85) data => s.decodeBlock data) Codec.ascii85
    (fun s data => s.block .decode data) (fun _ _ => rfl) {} blocks
  have hbegin : ((Codec.ascii85 c).start .decode ctx parms).2 = .quiet (.ascii85 {}) := rfl
  rw [Codec.session, hbegin, Step.quiet_andThen, ← Step.run_flatten,
    Step.map_andThen _ endDecode _ (·.finish .decode) fun _ => rfl]
  exact congrArg (Step.andThen · _) hblocks.symm

/-- A session accepts the texts of the grammar and makes their data of them. It fails on any other
text because of the data, and never depends on the blocks. -/
theorem session_decode_iff_isText (c : Ascii85) (ctx : CryptoContext) (parms : Option DecodeParms)
    (blocks : List Bytes) :
    (∀ data, ((Codec.ascii85 c).session .decode ctx parms blocks).output? = some data ↔
      IsText blocks.flatten data) ∧
    ((∃ fault, ((Codec.ascii85 c).session .decode ctx parms blocks).fault = some (.decode fault)) ↔
      ¬∃ data, IsText blocks.flatten data) ∧
    (Codec.ascii85 c).session .decode ctx parms blocks =
      (Codec.ascii85 c).session .decode ctx parms [blocks.flatten] := by
  have haccepts (data : Bytes) :
      ((Codec.ascii85 c).session .decode ctx parms blocks).output? = some data ↔
        IsText blocks.flatten data := by
    rw [session_decode_eq, Step.output?_map]
    exact decoded_iff_isText
  refine ⟨haccepts, ?_, ?_⟩
  · simp only [← haccepts]
    constructor
    · rintro ⟨fault, hfault⟩ ⟨data, hdata⟩
      rw [Step.output?_of_fault hfault] at hdata
      cases hdata
    · intro hnone
      cases hfault : ((Codec.ascii85 c).session .decode ctx parms blocks).fault with
      | none => exact absurd ⟨_, Step.output?_of_no_fault hfault⟩ hnone
      | some e =>
        have honly := (Step.FaultsOnly.run faultsOnly_readByte {} blocks.flatten).andThen
          faultsOnly_endDecode
        rw [session_decode_eq, Step.fault_map] at hfault
        obtain ⟨fault, rfl⟩ := honly e hfault
        exact ⟨fault, rfl⟩
  · rw [session_decode_eq, session_decode_eq, List.flatten_singleton]

end PdfStream.Ascii85
