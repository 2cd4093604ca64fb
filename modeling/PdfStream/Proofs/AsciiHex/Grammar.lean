import PdfStream.Proofs.Codec.Delimited

/-!
The texts that an ASCIIHex session reads and writes. Up to the end mark a text consists of digits in
either case and of blanks. Its digits in pairs are the bytes it stands for, wherever the blanks stand
and however the text is cut into blocks.
-/
namespace PdfStream.AsciiHex

/-- The characters `0` to `9` and `A` to `F`. -/
def capitalDigits : Bytes :=
  [0x30, 0x31, 0x32, 0x33, 0x34, 0x35, 0x36, 0x37, 0x38, 0x39, 0x41, 0x42, 0x43, 0x44, 0x45, 0x46]

/-- The characters `0` to `9` and `a` to `f`. -/
def smallDigits : Bytes :=
  [0x30, 0x31, 0x32, 0x33, 0x34, 0x35, 0x36, 0x37, 0x38, 0x39, 0x61, 0x62, 0x63, 0x64, 0x65, 0x66]

/-- The character is the digit of this value in one of the two cases. -/
def IsDigit (b value : UInt8) : Prop :=
  capitalDigits[value.toNat]? = some b ∨ smallDigits[value.toNat]? = some b

instance (b value : UInt8) : Decidable (IsDigit b value) := inferInstanceAs (Decidable (_ ∨ _))

/-- What stands in front of the first end mark, and all of the text if there is none. -/
def beforeMark (text : Bytes) : Bytes := text.takeWhile (· ≠ eod)

/-- The characters of digits, if the text has no others. -/
def digitChars (text : Bytes) : Bytes := (beforeMark text).filter fun b => !isPdfBlank b

/-- Two digits make a byte, the high one first. A last digit on its own counts as a high one. -/
def pairs : List UInt8 → Bytes
  | [] => []
  | [high] => [16 * high]
  | high :: low :: values => (16 * high + low) :: pairs values

/-- In front of the end mark stand blanks and digits only. -/
def IsText (text : Bytes) : Prop :=
  ∀ b ∈ beforeMark text, isPdfBlank b = true ∨ ∃ value, IsDigit b value

/-- The digits of `text` have these pairs. -/
def Spells (text data : Bytes) : Prop :=
  ∃ values, List.Forall₂ IsDigit (digitChars text) values ∧ data = pairs values

/-- The text of the data: two capital digits a byte, and the end mark. -/
def textOf (data : Bytes) : Bytes :=
  data.flatMap (fun b =>
    [capitalDigits.getD (b.toNat / 16) 0, capitalDigits.getD (b.toNat % 16) 0]) ++ [eod]

/-- The reader knows the digits and their values. -/
theorem value?_eq_some_iff {b value : UInt8} : Hex.value? b = some value ↔ IsDigit b value := by
  constructor
  · have hread : ∀ b : UInt8, (Hex.value? b).all (fun value => IsDigit b value) = true :=
      forall_byte (by decide +kernel)
    intro h
    simpa [h] using hread b
  · have hcapital : ∀ value : UInt8,
        (capitalDigits[value.toNat]?).all (fun b => Hex.value? b = some value) = true :=
      forall_byte (by decide +kernel)
    have hsmall : ∀ value : UInt8,
        (smallDigits[value.toNat]?).all (fun b => Hex.value? b = some value) = true :=
      forall_byte (by decide +kernel)
    rintro (h | h)
    · simpa [h] using hcapital value
    · simpa [h] using hsmall value

theorem IsDigit.unique {b value value' : UInt8} (h : IsDigit b value) (h' : IsDigit b value') :
    value = value' :=
  Option.some.inj ((value?_eq_some_iff.2 h).symm.trans (value?_eq_some_iff.2 h'))

theorem value?_eq_none_of_isPdfBlank {b : UInt8} (h : isPdfBlank b = true) :
    Hex.value? b = none := by
  have hall : ∀ b : UInt8, isPdfBlank b = true → Hex.value? b = none :=
    forall_byte (by decide +kernel)
  exact hall b h

theorem IsDigit.cases {b value : UInt8} (h : IsDigit b value) :
    isPdfBlank b = false ∧ b ≠ eod ∧ value < 16 := by
  have hread : ∀ b : UInt8, (Hex.value? b).all
      (fun value => isPdfBlank b = false ∧ b ≠ eod ∧ value < 16) = true :=
    forall_byte (by decide +kernel)
  simpa [value?_eq_some_iff.2 h] using hread b

theorem shiftLeft_four (high : UInt8) : high <<< 4 = 16 * high := by
  revert high
  exact forall_byte (by decide +kernel)

theorem shiftLeft_four_or {high low : UInt8} (hhigh : high < 16) (hlow : low < 16) :
    high <<< 4 ||| low = 16 * high + low := by
  have hall : ∀ m < 16, ∀ n < 16, UInt8.ofNat m <<< 4 ||| UInt8.ofNat n =
      16 * UInt8.ofNat m + UInt8.ofNat n := by decide +kernel
  simpa using hall high.toNat hhigh low.toNat hlow

theorem textOf_eq_encoded (data : Bytes) : textOf data = encoded data := by
  have hpair : ∀ b : UInt8, [capitalDigits.getD (b.toNat / 16) 0,
      capitalDigits.getD (b.toNat % 16) 0] =
      [Hex.digit 0x41 (b >>> 4), Hex.digit 0x41 (b &&& 15)] := forall_byte (by decide +kernel)
  simp only [textOf, encoded, Hex.upper, hpair]

section
variable {b value : UInt8}

theorem digitChars_nil : digitChars [] = [] := rfl

theorem digitChars_blank (hblank : isPdfBlank b = true) (text : Bytes) :
    digitChars (b :: text) = digitChars text := by
  have hmark : b ≠ eod := by
    rintro rfl
    revert hblank
    decide
  simp [digitChars, beforeMark, hblank, hmark]

theorem digitChars_mark (text : Bytes) : digitChars (eod :: text) = [] := by
  simp [digitChars, beforeMark]

theorem digitChars_cons (hblank : ¬isPdfBlank b = true) (hmark : b ≠ eod) (text : Bytes) :
    digitChars (b :: text) = b :: digitChars text := by
  simp [digitChars, beforeMark, hblank, hmark]

/-- The values that stand for a text are read off its characters one by one. -/
theorem forall₂_digit_iff (hdigit : IsDigit b value) {chars : Bytes} {P : List UInt8 → Prop} :
    (∃ values, List.Forall₂ IsDigit (b :: chars) values ∧ P values) ↔
      ∃ values, List.Forall₂ IsDigit chars values ∧ P (value :: values) := by
  constructor
  · rintro ⟨_, _ | ⟨hfirst, hrest⟩, hP⟩
    obtain rfl := hdigit.unique hfirst
    exact ⟨_, hrest, hP⟩
  · rintro ⟨values, hrest, hP⟩
    exact ⟨value :: values, .cons hdigit hrest, hP⟩

/-- A text has a reading exactly if it holds nothing but blanks and digits. -/
theorem exists_spells_iff {text : Bytes} : (∃ data, Spells text data) ↔ IsText text := by
  have hvalues {chars : Bytes} : (∃ values, List.Forall₂ IsDigit chars values) ↔
      ∀ b ∈ chars, ∃ value, IsDigit b value := by
    induction chars with
    | nil => simp
    | cons b chars ih =>
      simp only [List.forall₂_cons_left_iff, List.forall_mem_cons, ← ih]
      constructor
      · rintro ⟨_, value, values, hdigit, hrest, -⟩
        exact ⟨⟨value, hdigit⟩, values, hrest⟩
      · rintro ⟨⟨value, hdigit⟩, values, hrest⟩
        exact ⟨_, value, values, hdigit, hrest, rfl⟩
  have hsome : (∃ data, Spells text data) ↔
      ∃ values, List.Forall₂ IsDigit (digitChars text) values := by
    constructor
    · rintro ⟨_, values, hchars, -⟩
      exact ⟨values, hchars⟩
    · rintro ⟨values, hchars⟩
      exact ⟨pairs values, values, hchars, rfl⟩
  rw [hsome, hvalues]
  simp only [IsText, digitChars, List.mem_filter, Bool.not_eq_true', and_imp]
  refine forall₂_congr fun b _ => ?_
  cases isPdfBlank b <;> simp

end

theorem decoded_cons (c : AsciiHex) (b : UInt8) (text : Bytes) :
    decoded c (b :: text) = (readByte c b).output?.bind fun out =>
      (decoded (readByte c b).state text).map (out ++ ·) :=
  Step.output?_run_cons readByte endDecode c b text

/-- Behind the end mark the reader takes anything, and completes the digit it holds. -/
theorem decoded_finished (high : Option UInt8) (text : Bytes) :
    decoded ⟨high, true⟩ text = decoded ⟨high, false⟩ [] := by
  induction text with
  | nil => rfl
  | cons b text ih =>
    have hread : readByte ⟨high, true⟩ b = .quiet ⟨high, true⟩ := rfl
    simp [decoded_cons, hread, ih]

theorem decoded_nil (high : Option UInt8) :
    decoded ⟨high, false⟩ [] = some (pairs high.toList) := by
  cases high with
  | none => rfl
  | some high => simp [decoded, endDecode, pairs, shiftLeft_four]

/-- The reader makes pairs of the digits to come, a digit that it holds in front of them. By induction
on the text. -/
theorem decoded_iff {high : Option UInt8} (hhigh : ∀ value ∈ high, value < 16) {text data : Bytes} :
    decoded ⟨high, false⟩ text = some data ↔
      ∃ values, List.Forall₂ IsDigit (digitChars text) values ∧
        data = pairs (high.toList ++ values) := by
  induction text generalizing high data with
  | nil => simp [decoded_nil, digitChars_nil, eq_comm]
  | cons b text ih =>
    by_cases hblank : isPdfBlank b = true
    · have hread : readByte ⟨high, false⟩ b = .quiet ⟨high, false⟩ := by
        simp [readByte, value?_eq_none_of_isPdfBlank hblank, hblank]
      simp [decoded_cons, hread, digitChars_blank hblank, ih hhigh]
    by_cases hmark : b = eod
    · have hread : readByte ⟨high, false⟩ eod = .quiet ⟨high, true⟩ := rfl
      have hrest : decoded ⟨high, false⟩ (eod :: text) = some (pairs high.toList) := by
        simp [decoded_cons, hread, decoded_finished, decoded_nil]
      simp [hmark, hrest, digitChars_mark, eq_comm]
    rw [digitChars_cons hblank hmark]
    cases hvalue : Hex.value? b with
    | none =>
      have hread : readByte ⟨high, false⟩ b = .stop ⟨high, false⟩ (.decode (.hexCharacter b)) := by
        simp [readByte, hvalue, hblank, hmark]
      have hnone (value : UInt8) : ¬IsDigit b value := by
        simp [← value?_eq_some_iff, hvalue]
      simp [decoded_cons, hread, List.forall₂_cons_left_iff, hnone]
    | some value =>
      have hdigit := value?_eq_some_iff.1 hvalue
      rw [forall₂_digit_iff hdigit]
      cases high with
      | none =>
        have hread : readByte ⟨none, false⟩ b = .quiet ⟨some value, false⟩ := by
          simp [readByte, hvalue]
        simp [decoded_cons, hread, ih, hdigit.cases.2.2]
      | some high =>
        have hread : readByte ⟨some high, false⟩ b =
            .write ⟨none, false⟩ [16 * high + value] := by
          simp [readByte, hvalue, shiftLeft_four_or (hhigh high rfl) hdigit.cases.2.2]
        have hopen {data : Bytes} : decoded ⟨none, false⟩ text = some data ↔
            ∃ values, List.Forall₂ IsDigit (digitChars text) values ∧ data = pairs values :=
          ih (by simp)
        simp only [decoded_cons, hread, Step.output?_write, Step.state_write, Option.bind_some,
          Option.map_eq_some_iff, hopen]
        simp [pairs, eq_comm]

theorem decoded_iff_spells {text data : Bytes} : decoded {} text = some data ↔ Spells text data :=
  decoded_iff (by simp)

/-- A session accepts blanks and digits in front of the end mark and makes bytes of the digits in
pairs. It fails on any other text because of the data. What a session writes are two capital digits a
byte and the end mark, which reads back as the data. None of this depends on the blocks. -/
theorem session_isText_readsBack (c : AsciiHex) (ctx : CryptoContext) (parms : Option DecodeParms)
    (blocks : List Bytes) :
    ((∃ data, ((Codec.asciiHex c).session .decode ctx parms blocks).output? = some data) ↔
      IsText blocks.flatten) ∧
    (∀ data, ((Codec.asciiHex c).session .decode ctx parms blocks).output? = some data ↔
      Spells blocks.flatten data) ∧
    ((∃ fault, ((Codec.asciiHex c).session .decode ctx parms blocks).fault = some (.decode fault)) ↔
      ¬IsText blocks.flatten) ∧
    ((Codec.asciiHex c).session .encode ctx none blocks).output? = some (textOf blocks.flatten) ∧
    ∀ (c' : AsciiHex) (ctx' : CryptoContext) (blocks' : List Bytes),
      blocks'.flatten = textOf blocks.flatten →
        ((Codec.asciiHex c').session .decode ctx' parms blocks').output? =
          some blocks.flatten := by
  have haccepts (data : Bytes) :
      ((Codec.asciiHex c).session .decode ctx parms blocks).output? = some data ↔
        Spells blocks.flatten data := by
    rw [c.decode_makes ctx parms blocks]
    exact decoded_iff_spells
  have hsome : (∃ data, ((Codec.asciiHex c).session .decode ctx parms blocks).output? =
      some data) ↔ IsText blocks.flatten := by
    simp only [haccepts, exists_spells_iff]
  refine ⟨hsome, haccepts, ?_, ?_, ?_⟩
  · rw [Codec.exists_fault_session_iff rfl, hsome]
  · rw [c.encode_makes ctx none blocks, textOf_eq_encoded]
  · intro c' ctx' blocks' hblocks'
    rw [c'.decode_makes ctx' parms blocks', hblocks', textOf_eq_encoded, decoded_encoded]

end PdfStream.AsciiHex
