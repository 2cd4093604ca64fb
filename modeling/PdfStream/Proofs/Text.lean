import Mathlib.Algebra.Ring.Int.Defs
import Mathlib.Data.List.DropRight
import Mathlib.Data.List.TakeWhile
import PdfStream.Text.Blank
import PdfStream.Text.Decimal

/-!
What trimming leaves of a text, and which numbers are read from decimal text: those of 64 bits are
read back from the text that they are shown as.
-/
namespace PdfStream
namespace Text

section
variable {p : Char → Bool} {cs : List Char}

theorem dropWhile_eq_self_iff : cs.dropWhile p = cs ↔ ∀ c ∈ cs.head?, p c = false := by
  cases cs <;> simp [List.dropWhile_eq_self_iff]

theorem rdropWhile_eq_self_iff : cs.rdropWhile p = cs ↔ ∀ c ∈ cs.getLast?, p c = false := by
  rcases List.eq_nil_or_concat cs with rfl | ⟨front, c, rfl⟩ <;>
    simp [List.rdropWhile_eq_self_iff]

end

section
variable {cs : List Char}

theorem trim_sublist (cs : List Char) : (trim cs).Sublist cs :=
  (List.rdropWhile_prefix isBlank _).sublist.trans (List.dropWhile_sublist isBlank)

/-- What ends a text does not change when its front is cut off. -/
theorem last_of_isSuffix {tail : List Char} (htail : tail <:+ cs)
    (hlast : ∀ c ∈ cs.getLast?, isBlank c = false) : ∀ c ∈ tail.getLast?, isBlank c = false := by
  obtain ⟨front, rfl⟩ := htail
  intro c hc
  refine hlast c ?_
  rw [Option.mem_def] at hc ⊢
  rw [List.getLast?_append, hc, Option.some_or]

theorem last_trim (cs : List Char) : ∀ c ∈ (trim cs).getLast?, isBlank c = false :=
  rdropWhile_eq_self_iff.1 (List.rdropWhile_idempotent isBlank (cs.dropWhile isBlank))

/-- A text that no blank ends loses its leading blanks only. -/
theorem trim_eq_dropWhile (hlast : ∀ c ∈ cs.getLast?, isBlank c = false) :
    trim cs = cs.dropWhile isBlank :=
  rdropWhile_eq_self_iff.2 (last_of_isSuffix (List.dropWhile_suffix isBlank) hlast)

theorem trim_eq_self (hfirst : ∀ c ∈ cs.head?, isBlank c = false)
    (hlast : ∀ c ∈ cs.getLast?, isBlank c = false) : trim cs = cs :=
  (trim_eq_dropWhile hlast).trans (dropWhile_eq_self_iff.2 hfirst)

theorem trim_eq_self_of_forall (h : ∀ c ∈ cs, isBlank c = false) : trim cs = cs :=
  trim_eq_self (fun c hc => h c (List.mem_of_mem_head? hc))
    fun c hc => h c (List.mem_of_mem_getLast? hc)

end

theorem isBlank_eq_false_of_isDigit {c : Char} (h : c.isDigit = true) : isBlank c = false := by
  have hrange : 48 ≤ c.toNat ∧ c.toNat ≤ 57 := by
    simpa [Char.isDigit, Char.le_def, UInt32.le_iff_toNat_le] using h
  rw [← Bool.not_eq_true]
  simp only [isBlank, Bool.or_eq_true, Bool.and_eq_true, decide_eq_true_eq, beq_iff_eq]
  omega

end Text

namespace Decimal

theorem digit?_of_isDigit {c : Char} (h : c.isDigit = true) :
    digit? c = some (c.toNat - '0'.toNat) := by
  have hrange : '0' ≤ c ∧ c ≤ '9' := by
    simpa [Char.isDigit, Char.le_def] using h
  exact if_pos hrange

theorem natFrom_of_forall_isDigit {cs : List Char} (h : ∀ c ∈ cs, c.isDigit = true) (n : Nat) :
    natFrom n cs = some (Nat.ofDigitChars 10 cs n) := by
  induction cs generalizing n with
  | nil => rfl
  | cons c cs ih =>
    obtain ⟨hc, hcs⟩ := List.forall_mem_cons.1 h
    rw [natFrom, digit?_of_isDigit hc, Nat.ofDigitChars_cons, Nat.mul_comm]
    exact ih hcs _

theorem isDigit_of_mem_toDigits {n : Nat} {c : Char} (h : c ∈ Nat.toDigits 10 n) :
    c.isDigit = true :=
  Nat.isDigit_of_mem_toDigits (by decide) (by decide) h

theorem nat?_toDigits (n : Nat) : nat? (Nat.toDigits 10 n) = some n := by
  have hread : natFrom 0 (Nat.toDigits 10 n) = some n := by
    rw [natFrom_of_forall_isDigit (fun c => isDigit_of_mem_toDigits),
      Nat.ofDigitChars_ten_toDigits]
  cases hdigits : Nat.toDigits 10 n with
  | nil => exact absurd hdigits Nat.toDigits_ne_nil
  | cons c cs => rwa [hdigits] at hread

/-- Digits have no sign in front. -/
theorem signed?_of_forall_isDigit {cs : List Char} (h : ∀ c ∈ cs, c.isDigit = true) :
    signed? cs = (nat? cs).map Int.ofNat := by
  unfold signed?
  split
  · exact absurd (h '-' List.mem_cons_self) (by decide)
  · exact absurd (h '+' List.mem_cons_self) (by decide)
  · cases nat? cs <;> rfl

theorem toList_toString (i : Int) : (toString i).toList =
    if i < 0 then '-' :: Nat.toDigits 10 i.natAbs else Nat.toDigits 10 i.natAbs := by
  cases i with
  | ofNat n => simp [Int.toString_eq_repr, Int.repr]
  | negSucc n => simp [Int.toString_eq_repr, Int.repr]

theorem signed?_toString (i : Int) : signed? (toString i).toList = some i := by
  rw [toList_toString]
  split_ifs with hneg
  · have hvalue : -(i.natAbs : Int) = i := by omega
    rw [signed?, nat?_toDigits]
    exact congrArg some hvalue
  · have hvalue : Int.ofNat i.natAbs = i := Int.natAbs_of_nonneg (Int.not_lt.1 hneg)
    rw [signed?_of_forall_isDigit (fun c => isDigit_of_mem_toDigits), nat?_toDigits,
      Option.map_some, hvalue]

theorem int64?_eq_some_iff {cs : List Char} {i : Int} :
    int64? cs = some i ↔ signed? cs = some i ∧ -2 ^ 63 ≤ i ∧ i < 2 ^ 63 := by
  simp [int64?, Option.filter_eq_some_iff]

theorem int64?_toString {i : Int} (h : -2 ^ 63 ≤ i ∧ i < 2 ^ 63) :
    int64? (toString i).toList = some i :=
  int64?_eq_some_iff.2 ⟨signed?_toString i, h⟩

theorem isBlank_eq_false_of_mem_toString {i : Int} {c : Char} (h : c ∈ (toString i).toList) :
    Text.isBlank c = false := by
  rw [toList_toString] at h
  split_ifs at h with hneg
  · rcases List.mem_cons.1 h with rfl | hdigit
    · rfl
    · exact Text.isBlank_eq_false_of_isDigit (isDigit_of_mem_toDigits hdigit)
  · exact Text.isBlank_eq_false_of_isDigit (isDigit_of_mem_toDigits h)

end Decimal
end PdfStream
