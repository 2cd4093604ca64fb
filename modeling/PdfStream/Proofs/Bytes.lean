import Mathlib.Algebra.Group.Nat.Even
import Mathlib.Data.List.Induction
import PdfStream.Bytes

/-!
Facts about single bytes, settled by going through all of them, and about the numbers that byte
strings stand for.
-/
namespace PdfStream

/-- A property of bytes that holds of all 256 of them. -/
theorem forall_byte {P : UInt8 → Prop} (h : ∀ n < 256, P (UInt8.ofNat n)) (b : UInt8) : P b := by
  have hn := h b.toNat b.toNat_lt
  rwa [UInt8.ofNat_toNat] at hn

namespace Bytes

theorem toNat_append (xs ys : Bytes) :
    toNat (xs ++ ys) = toNat xs * 256 ^ ys.length + toNat ys := by
  induction ys using List.reverseRecOn with
  | nil => simp [toNat]
  | append_singleton ys b ih =>
    rw [← List.append_assoc, toNat_append_singleton, toNat_append_singleton, ih,
      List.length_append, List.length_singleton, Nat.pow_succ, Nat.add_mul,
      ← Nat.mul_assoc, Nat.add_assoc]

theorem toNat_lt (bytes : Bytes) : toNat bytes < 256 ^ bytes.length := by
  induction bytes using List.reverseRecOn with
  | nil => exact Nat.one_pos
  | append_singleton bytes b ih =>
    have hb := b.toNat_lt
    rw [toNat_append_singleton, List.length_append, List.length_singleton, Nat.pow_succ]
    omega

theorem ofNat_toNat (bytes : Bytes) : ofNat bytes.length (toNat bytes) = bytes := by
  induction bytes using List.reverseRecOn with
  | nil => rfl
  | append_singleton bytes b ih =>
    have hb := b.toNat_lt
    have hhigh : (toNat bytes * 256 + b.toNat) / 256 = toNat bytes := by omega
    have hlow : UInt8.ofNat (toNat bytes * 256 + b.toNat) = b := by
      apply UInt8.toNat_inj.1
      rw [UInt8.toNat_ofNat']
      omega
    rw [List.length_append, List.length_singleton, ofNat, toNat_append_singleton, hhigh, hlow, ih]

theorem lt_pow_width (n : Nat) : n < 256 ^ width n := by
  have hlt := lt_shift_width n
  rwa [Nat.one_shiftLeft, Nat.pow_mul] at hlt

/-- A number has no leading zeros. -/
theorem pow_width_le {n : Nat} (h : n ≠ 0) : 256 ^ (width n - 1) ≤ n := by
  rw [width, if_neg h, Nat.add_sub_cancel, show 256 = 2 ^ 8 from rfl, ← Nat.pow_mul]
  exact Nat.le_trans (Nat.pow_le_pow_right Nat.two_pos (Nat.mul_div_le n.log2 8))
    (Nat.log2_self_le h)

theorem toNat_ofNat_of_lt {size n : Nat} (h : n < 256 ^ size) : toNat (ofNat size n) = n := by
  rw [toNat_ofNat, Nat.one_shiftLeft, Nat.pow_mul, Nat.mod_eq_of_lt h]

/-- The high digits of a number are those of its quotient. -/
theorem take_ofNat (high low n : Nat) :
    (ofNat (high + low) n).take high = ofNat high (n / 256 ^ low) := by
  induction low generalizing n with
  | zero =>
    rw [Nat.add_zero, Nat.pow_zero, Nat.div_one, List.take_of_length_le]
    exact Nat.le_of_eq (length_ofNat high n)
  | succ low ih =>
    rw [← Nat.add_assoc, ofNat, List.take_append_of_le_length, ih, Nat.div_div_eq_div_mul,
      Nat.pow_succ, Nat.mul_comm]
    rw [length_ofNat]
    exact Nat.le_add_right high low

theorem length_le_of_mem_chunks {size : Nat} {bytes chunk : Bytes} (h : chunk ∈ chunks size bytes) :
    chunk.length ≤ size := by
  fun_induction chunks size bytes with
  | case1 => cases h
  | case2 bytes _ ih =>
    rcases List.mem_cons.1 h with rfl | hrest
    · exact List.length_take_le size bytes
    · exact ih hrest

end Bytes
end PdfStream
