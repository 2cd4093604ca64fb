/-!
Byte strings, and the big-endian numbers they stand for.
-/
namespace PdfStream

abbrev Bytes := List UInt8

namespace Bytes

/-- The number whose base-256 digits are `bytes`, high digit first. -/
def toNat (bytes : Bytes) : Nat :=
  bytes.foldl (fun n b => n * 256 + b.toNat) 0

/-- The `width` low base-256 digits of `n`, high digit first. -/
def ofNat : (width n : Nat) → Bytes
  | 0, _ => []
  | width + 1, n => ofNat width (n / 256) ++ [UInt8.ofNat n]

@[simp] theorem length_ofNat (width n : Nat) : (ofNat width n).length = width := by
  induction width generalizing n with
  | zero => rfl
  | succ width ih => simp [ofNat, ih]

@[simp] theorem toNat_append_singleton (bytes : Bytes) (b : UInt8) :
    toNat (bytes ++ [b]) = toNat bytes * 256 + b.toNat := by
  simp [toNat]

theorem toNat_ofNat (width n : Nat) : toNat (ofNat width n) = n % 1 <<< (8 * width) := by
  induction width generalizing n with
  | zero => simp [ofNat, toNat, Nat.mod_one]
  | succ width ih =>
    have hshift : 1 <<< (8 * (width + 1)) = 256 * 1 <<< (8 * width) := by
      rw [Nat.one_shiftLeft, Nat.one_shiftLeft, Nat.mul_succ, Nat.pow_add, Nat.mul_comm]
    simp only [ofNat, toNat_append_singleton, ih, UInt8.toNat_ofNat', hshift, Nat.mod_mul]
    omega

/-- How many base-256 digits `n` has; zero has none. -/
def width (n : Nat) : Nat :=
  if n = 0 then 0 else n.log2 / 8 + 1

theorem lt_shift_width (n : Nat) : n < 1 <<< (8 * width n) := by
  rw [Nat.one_shiftLeft]
  unfold width
  split
  · rename_i h
    simp [h]
  · exact Nat.lt_of_lt_of_le Nat.lt_log2_self (Nat.pow_le_pow_right (by omega) (by omega))

theorem toNat_ofNat_width (n : Nat) : toNat (ofNat (width n) n) = n := by
  rw [toNat_ofNat, Nat.mod_eq_of_lt (lt_shift_width n)]

def ofAscii (text : String) : Bytes :=
  text.toList.map fun c => UInt8.ofNat c.toNat

/-- Each byte read as the character of that number. -/
def toText (bytes : Bytes) : String :=
  String.ofList (bytes.map fun b => Char.ofNat b.toNat)

/-- Consecutive pieces of `size` bytes; the last may be shorter. -/
def chunks (size : Nat) (bytes : Bytes) : List Bytes :=
  if bytes = [] ∨ size = 0 then []
  else bytes.take size :: chunks size (bytes.drop size)
termination_by bytes.length
decreasing_by
  rename_i h
  have : bytes.length ≠ 0 := fun h' => h (.inl (List.length_eq_zero_iff.mp h'))
  simp only [List.length_drop]
  omega

theorem flatten_chunks {size : Nat} (h : size ≠ 0) (bytes : Bytes) :
    (chunks size bytes).flatten = bytes := by
  fun_induction chunks size bytes with
  | case1 bytes hend =>
    have : bytes = [] := hend.resolve_right h
    simp [this]
  | case2 bytes _ ih => simp [ih]

end Bytes
end PdfStream
