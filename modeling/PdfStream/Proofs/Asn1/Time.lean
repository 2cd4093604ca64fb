import PdfStream.Asn1.Time
import PdfStream.Proofs.Calendar

/-!
The two forms of a time as text. What is written for a date has the form that the date asks for, and
reading it gives the date back.
-/
namespace PdfStream.Time
open Der Calendar

/-- The number `n` in decimal, with `width` digits. -/
def IsDecimal (width n : Nat) (text : Bytes) : Prop :=
  text.length = width ∧ (∀ b ∈ text, 0x30 ≤ b ∧ b ≤ 0x39) ∧
    text.foldl (fun value b => value * 10 + (b.toNat - 0x30)) 0 = n

/-- `MMDDhhmmssZ` -/
def IsDayAndTime (c : CivilTime) (text : Bytes) : Prop :=
  ∃ month day hour minute second : Bytes,
    text = month ++ day ++ hour ++ minute ++ second ++ [0x5A] ∧
    IsDecimal 2 c.month month ∧ IsDecimal 2 c.day day ∧ IsDecimal 2 c.hour hour ∧
    IsDecimal 2 c.minute minute ∧ IsDecimal 2 c.second second

/-- `YYMMDDhhmmssZ`, where 50 to 99 stand for years of the 20th century and 00 to 49 for years of
the 21st. -/
def IsUtcText (c : CivilTime) (text : Bytes) : Prop :=
  ∃ (n : Nat) (year rest : Bytes), text = year ++ rest ∧ IsDecimal 2 n year ∧
    (50 ≤ n ∧ c.year = 1900 + n ∨ n < 50 ∧ c.year = 2000 + n) ∧ IsDayAndTime c rest

/-- `YYYYMMDDhhmmssZ` -/
def IsGeneralizedText (c : CivilTime) (text : Bytes) : Prop :=
  ∃ year rest : Bytes, text = year ++ rest ∧ IsDecimal 4 c.year year ∧ IsDayAndTime c rest

theorem toNat_digit {d : Nat} (h : d < 10) : (UInt8.ofNat (0x30 + d)).toNat = 0x30 + d := by
  rw [UInt8.toNat_ofNat']
  omega

theorem isDigit_ofNat {d : Nat} (h : d < 10) :
    0x30 ≤ UInt8.ofNat (0x30 + d) ∧ UInt8.ofNat (0x30 + d) ≤ 0x39 := by
  rw [UInt8.le_iff_toNat_le, UInt8.le_iff_toNat_le, toNat_digit h]
  exact ⟨Nat.le_add_right _ _, Nat.add_le_add_left (Nat.le_of_lt_succ h) _⟩

theorem isDecimal_twoDigits {n : Nat} (h : n < 100) : IsDecimal 2 n (twoDigits n) := by
  have hhigh : n / 10 < 10 := by omega
  have hlow : n % 10 < 10 := Nat.mod_lt n (by decide)
  refine ⟨rfl, ?_, ?_⟩
  · simp only [twoDigits, List.forall_mem_cons, List.not_mem_nil, false_implies, implies_true,
      and_true]
    exact ⟨isDigit_ofNat hhigh, isDigit_ofNat hlow⟩
  · simp only [twoDigits, List.foldl_cons, List.foldl_nil, toNat_digit hhigh, toNat_digit hlow]
    omega

theorem foldl_digits (value : Nat) (text : Bytes) :
    text.foldl (fun value b => value * 10 + (b.toNat - 0x30)) value =
      value * 10 ^ text.length + text.foldl (fun value b => value * 10 + (b.toNat - 0x30)) 0 := by
  induction text generalizing value with
  | nil => simp
  | cons b text ih =>
    rw [List.foldl_cons, List.foldl_cons, ih, ih (0 * 10 + _), List.length_cons, Nat.pow_succ,
      Nat.zero_mul, Nat.zero_add, Nat.add_mul, Nat.mul_assoc, Nat.mul_comm 10, Nat.add_assoc]

theorem IsDecimal.append {width width' n n' : Nat} {text text' : Bytes}
    (h : IsDecimal width n text) (h' : IsDecimal width' n' text') :
    IsDecimal (width + width') (n * 10 ^ width' + n') (text ++ text') := by
  obtain ⟨rfl, hdigits, rfl⟩ := h
  obtain ⟨rfl, hdigits', rfl⟩ := h'
  refine ⟨List.length_append, ?_, ?_⟩
  · intro b hb
    exact (List.mem_append.1 hb).elim (hdigits b) (hdigits' b)
  · rw [List.foldl_append, foldl_digits]

section
variable {c : CivilTime}

theorem isDayAndTime_flatMap (hc : c.OnCalendar) :
    IsDayAndTime c ([c.month, c.day, c.hour, c.minute, c.second].flatMap twoDigits ++ [0x5A]) := by
  have hmonth := hc.month_le
  have hday := hc.day_le_31
  have hhour := hc.hour_lt
  have hminute := hc.minute_lt
  have hsecond := hc.second_lt
  exact ⟨_, _, _, _, _, by simp only [List.flatMap_cons, List.flatMap_nil, List.append_nil,
    List.append_assoc], isDecimal_twoDigits (by omega), isDecimal_twoDigits (by omega),
    isDecimal_twoDigits (by omega), isDecimal_twoDigits (by omega),
    isDecimal_twoDigits (by omega)⟩

theorem isUtcText_text (hc : c.OnCalendar) (hyear : c.year < 2050) :
    IsUtcText c (text ⟨.utc, c⟩) := by
  refine ⟨shortYear c.year, _, _, List.append_assoc _ _ _, isDecimal_twoDigits
    (Nat.mod_lt _ (by decide)), ?_, isDayAndTime_flatMap hc⟩
  have hstart := hc.year_ge
  unfold shortYear
  omega

theorem isGeneralizedText_text (hc : c.OnCalendar) (hyear : c.year ≤ 9999) :
    IsGeneralizedText c (text ⟨.generalized, c⟩) := by
  have hcentury : IsDecimal 2 (c.year / 100) (twoDigits (c.year / 100)) :=
    isDecimal_twoDigits (by omega)
  have hshort : IsDecimal 2 (c.year % 100) (twoDigits (c.year % 100)) :=
    isDecimal_twoDigits (Nat.mod_lt _ (by decide))
  have hboth := hcentury.append hshort
  rw [show c.year / 100 * 10 ^ 2 + c.year % 100 = c.year by omega] at hboth
  refine ⟨_, _, ?_, hboth, isDayAndTime_flatMap hc⟩
  simp only [text, parts, List.flatMap_cons, List.append_assoc]

theorem digit?_ofNat {d : Nat} (h : d < 10) : digit? (UInt8.ofNat (0x30 + d)) = some d := by
  have hsub : (UInt8.ofNat (0x30 + d) - 0x30).toNat = d := by
    rw [UInt8.toNat_sub_of_le _ _ (isDigit_ofNat h).1, toNat_digit h]
    exact Nat.add_sub_cancel_left 0x30 d
  rw [digit?, if_pos (isDigit_ofNat h), hsub]

theorem parts?_flatMap {ns : List Nat} (h : ∀ n ∈ ns, n < 100) :
    parts? (ns.flatMap twoDigits ++ [0x5A]) = some ns := by
  induction ns with
  | nil => rfl
  | cons n ns ih =>
    obtain ⟨hn, hrest⟩ := List.forall_mem_cons.1 h
    have hhigh : n / 10 < 10 := by omega
    have hlow : n % 10 < 10 := Nat.mod_lt n (by decide)
    have hvalue : n / 10 * 10 + n % 10 = n := by omega
    simp only [List.flatMap_cons, twoDigits, List.cons_append, List.nil_append, parts?,
      digit?_ofNat hhigh, digit?_ofNat hlow, ih hrest, hvalue, bind, Option.bind, pure]

theorem parts_lt (hc : c.OnCalendar) (hyear : c.year ≤ 9999) (form : TimeForm) :
    ∀ n ∈ parts ⟨form, c⟩, n < 100 := by
  have hmonth := hc.month_le
  have hday := hc.day_le_31
  have hhour := hc.hour_lt
  have hminute := hc.minute_lt
  have hsecond := hc.second_lt
  cases form with
  | utc =>
    simp only [parts, shortYear, List.forall_mem_cons, List.not_mem_nil, false_implies,
      implies_true, and_true]
    omega
  | generalized =>
    simp only [parts, List.forall_mem_cons, List.not_mem_nil, false_implies, implies_true,
      and_true]
    omega

theorem ofParts?_parts (hc : c.OnCalendar) {form : TimeForm}
    (hyear : form = .utc → c.year < 2050) :
    ofParts? form (parts ⟨form, c⟩) = some ⟨form, c⟩ := by
  cases form with
  | utc =>
    have hstart := hc.year_ge
    have hend := hyear rfl
    have hshort : ofShortYear (shortYear c.year) = c.year := by
      unfold ofShortYear shortYear
      split_ifs <;> omega
    rw [parts, ofParts?, hshort]
  | generalized =>
    have hlong : c.year / 100 * 100 + c.year % 100 = c.year := by omega
    rw [parts, ofParts?, hlong]

theorem ofText?_text (hc : c.OnCalendar) (hlast : c.year ≤ 9999) {form : TimeForm}
    (hyear : form = .utc → c.year < 2050) : ofText? form (text ⟨form, c⟩) = some ⟨form, c⟩ := by
  rw [ofText?, text, parts?_flatMap (parts_lt hc hlast form), Option.bind_eq_bind,
    Option.bind_some, ofParts?_parts hc hyear, Option.bind_eq_bind, Option.bind_some]
  exact if_pos (hc.isValid hlast)

/-- A time in the form that its year asks for is read from its element. -/
theorem ofElement?_ofCivil (hc : c.OnCalendar) (hlast : c.year ≤ 9999) :
    ofElement? (ofCivil c).element = some (ofCivil c) := by
  unfold ofCivil
  split_ifs with hyear
  · exact ofText?_text hc hlast fun _ => hyear
  · exact ofText?_text hc hlast nofun

end

end PdfStream.Time
