import Mathlib.Data.Finite.Prod
import PdfStream.Cipher.Aes
import PdfStream.Proofs.Bytes

/-!
AES decryption undoes encryption, layer by layer. Mixing columns is undone because multiplication is
linear, so that it is enough to go through the bytes one column entry at a time. There are finitely
many blocks, so encryption undoes decryption as well.
-/
namespace PdfStream.Aes

theorem Block.xor_xor (a b : Block) : (a.xor b).xor b = a := by
  ext i hi
  simp only [Block.xor, Vector.getElem_zipWith]
  rw [UInt8.xor_assoc, UInt8.xor_self, UInt8.xor_zero]

theorem invSub_sub (b : UInt8) : invSub (sub b) = b := by
  revert b
  apply forall_byte
  decide +kernel

theorem invSubBytes_subBytes (b : Block) : invSubBytes (subBytes b) = b := by
  ext i hi
  simp [invSubBytes, subBytes, invSub_sub]

theorem Block.get_ofFn (f : Fin 16 → UInt8) (i : Fin 16) : Vector.get (Vector.ofFn f) i = f i :=
  Vector.getElem_ofFn i.isLt

theorem Block.ext_get {a b : Block} (h : ∀ i : Fin 16, a.get i = b.get i) : a = b :=
  Vector.ext fun i hi => h ⟨i, hi⟩

theorem invShiftRows_shiftRows (b : Block) : invShiftRows (shiftRows b) = b := by
  apply Block.ext_get
  intro i
  rw [invShiftRows, Block.get_ofFn, shiftRows, Block.get_ofFn]
  congr 1
  apply Fin.ext
  dsimp only
  omega

theorem double_eq (b : UInt8) :
    double b = b <<< 1 ^^^ if b.toBitVec.msb then 0x1b else 0 := by
  revert b
  apply forall_byte
  decide +kernel

theorem xor_exchange (a b c d : UInt8) : (a ^^^ b) ^^^ (c ^^^ d) = (a ^^^ c) ^^^ (b ^^^ d) := by
  ac_rfl

theorem double_xor (a b : UInt8) : double (a ^^^ b) = double a ^^^ double b := by
  rw [double_eq, double_eq, double_eq, UInt8.toBitVec_xor, BitVec.msb_xor, UInt8.shiftLeft_xor,
    xor_exchange]
  congr 1
  cases a.toBitVec.msb <;> cases b.toBitVec.msb <;> rfl

/-- A coefficient of a polynomial is 0 or 1. -/
theorem bit_mul_xor {k : UInt8} (hk : k = 0 ∨ k = 1) (a b : UInt8) :
    k * (a ^^^ b) = k * a ^^^ k * b := by
  rcases hk with rfl | rfl
  · rw [UInt8.zero_mul, UInt8.zero_mul, UInt8.zero_mul]
    rfl
  · rw [UInt8.one_mul, UInt8.one_mul, UInt8.one_mul]

theorem coefficients (c : UInt8) : c < 16 → (c % 2 = 0 ∨ c % 2 = 1) ∧
    (c / 2 % 2 = 0 ∨ c / 2 % 2 = 1) ∧ (c / 4 % 2 = 0 ∨ c / 4 % 2 = 1) ∧
      (c / 8 = 0 ∨ c / 8 = 1) := by
  revert c
  apply forall_byte
  decide +kernel

theorem times_xor {c : UInt8} (hc : c < 16) (a b : UInt8) :
    times c (a ^^^ b) = times c a ^^^ times c b := by
  obtain ⟨h0, h1, h2, h3⟩ := coefficients c hc
  simp only [times, double_xor]
  rw [bit_mul_xor h0, bit_mul_xor h1, bit_mul_xor h2, bit_mul_xor h3]
  ac_rfl

/-- An entry of a mixed column, from the entries of the column, its own first. -/
def mixEntry (a b c d : UInt8) : UInt8 := times 2 a ^^^ times 3 b ^^^ times 1 c ^^^ times 1 d

theorem times_small (b : UInt8) :
    times 1 b = b ∧ times 2 b = double b ∧ times 3 b = b ^^^ double b := by
  revert b
  apply forall_byte
  decide +kernel

theorem times_large (b : UInt8) :
    times 9 b = b ^^^ double (double (double b)) ∧
      times 11 b = b ^^^ double b ^^^ double (double (double b)) ∧
      times 13 b = b ^^^ double (double b) ^^^ double (double (double b)) ∧
      times 14 b = double b ^^^ double (double b) ^^^ double (double (double b)) := by
  revert b
  apply forall_byte
  decide +kernel

/-- What the entries of the column bring to its first entry when it is mixed and unmixed. -/
theorem times_times (x : UInt8) :
    times 14 (times 2 x) ^^^ times 11 (times 1 x) ^^^ times 13 (times 1 x) ^^^
        times 9 (times 3 x) = x ∧
      times 14 (times 3 x) ^^^ times 11 (times 2 x) ^^^ times 13 (times 1 x) ^^^
        times 9 (times 1 x) = 0 ∧
      times 14 (times 1 x) ^^^ times 11 (times 3 x) ^^^ times 13 (times 2 x) ^^^
        times 9 (times 1 x) = 0 ∧
      times 14 (times 1 x) ^^^ times 11 (times 1 x) ^^^ times 13 (times 3 x) ^^^
        times 9 (times 2 x) = 0 := by
  have hcancel (a b : UInt8) : a ^^^ (a ^^^ b) = b := by
    rw [← UInt8.xor_assoc, UInt8.xor_self, UInt8.zero_xor]
  have hleft (a b c : UInt8) : a ^^^ (b ^^^ c) = b ^^^ (a ^^^ c) := by ac_rfl
  obtain ⟨h1, h2, h3⟩ := times_small x
  rw [h1, h2, h3]
  simp only [(times_large _).1, (times_large _).2.1, (times_large _).2.2.1, (times_large _).2.2.2,
    double_xor]
  -- every multiple of x but one occurs an even number of times
  simp [UInt8.xor_assoc, UInt8.xor_comm, hleft, hcancel]

theorem unmix_entry (a b c d : UInt8) :
    times 14 (mixEntry a b c d) ^^^ times 11 (mixEntry b c d a) ^^^ times 13 (mixEntry c d a b) ^^^
      times 9 (mixEntry d a b c) = a := by
  have h14 : (14 : UInt8) < 16 := by decide
  have h11 : (11 : UInt8) < 16 := by decide
  have h13 : (13 : UInt8) < 16 := by decide
  have h9 : (9 : UInt8) < 16 := by decide
  obtain ⟨ha, -⟩ := times_times a
  obtain ⟨-, hb, -⟩ := times_times b
  obtain ⟨-, -, hc, -⟩ := times_times c
  obtain ⟨-, -, -, hd⟩ := times_times d
  simp only [mixEntry, times_xor h14, times_xor h11, times_xor h13, times_xor h9]
  calc _ = (times 14 (times 2 a) ^^^ times 11 (times 1 a) ^^^ times 13 (times 1 a) ^^^
          times 9 (times 3 a)) ^^^
        (times 14 (times 3 b) ^^^ times 11 (times 2 b) ^^^ times 13 (times 1 b) ^^^
          times 9 (times 1 b)) ^^^
        (times 14 (times 1 c) ^^^ times 11 (times 3 c) ^^^ times 13 (times 2 c) ^^^
          times 9 (times 1 c)) ^^^
        (times 14 (times 1 d) ^^^ times 11 (times 1 d) ^^^ times 13 (times 3 d) ^^^
          times 9 (times 2 d)) := by ac_rfl
    _ = a := by rw [ha, hb, hc, hd, UInt8.xor_zero, UInt8.xor_zero, UInt8.xor_zero]

theorem column_lt (i : Fin 16) (k : Nat) : i.val / 4 * 4 + (i.val + k) % 4 < 16 := by
  omega

/-- The entries of the column of entry i, from i on. -/
def column (b : Block) (i : Fin 16) (k : Nat) : UInt8 :=
  b.get ⟨i.val / 4 * 4 + (i.val + k) % 4, column_lt i k⟩

theorem column_zero (b : Block) (i : Fin 16) : column b i 0 = b.get i := by
  unfold column
  congr 1
  apply Fin.ext
  dsimp only
  omega

theorem column_add_four (b : Block) (i : Fin 16) (k : Nat) :
    column b i (k + 4) = column b i k := by
  unfold column
  congr 1
  apply Fin.ext
  dsimp only
  omega

theorem column_column (b : Block) (i : Fin 16) (j k : Nat) :
    column b ⟨i.val / 4 * 4 + (i.val + j) % 4, column_lt i j⟩ k = column b i (j + k) := by
  unfold column
  congr 1
  apply Fin.ext
  dsimp only
  omega

theorem column_mixColumns (b : Block) (i : Fin 16) (k : Nat) :
    column (mixColumns b) i k = mixEntry (column b i k) (column b i (k + 1))
      (column b i (k + 2)) (column b i (k + 3)) := by
  have hmix (j : Fin 16) : (mixColumns b).get j =
      mixEntry (column b j 0) (column b j 1) (column b j 2) (column b j 3) := Block.get_ofFn _ j
  rw [column, hmix, column_column, column_column, column_column, column_column, Nat.add_zero]

theorem invMixColumns_mixColumns (b : Block) : invMixColumns (mixColumns b) = b := by
  apply Block.ext_get
  intro i
  have hunmix : (invMixColumns (mixColumns b)).get i =
      times 14 (column (mixColumns b) i 0) ^^^ times 11 (column (mixColumns b) i 1) ^^^
        times 13 (column (mixColumns b) i 2) ^^^ times 9 (column (mixColumns b) i 3) :=
    Block.get_ofFn _ i
  have h4 := column_add_four b i 0
  have h5 := column_add_four b i 1
  have h6 := column_add_four b i 2
  rw [hunmix, column_mixColumns, column_mixColumns, column_mixColumns, column_mixColumns, h4, h5,
    h6, unmix_entry, column_zero]

theorem undoRounds_applyRounds (keys : List Block) (b : Block) :
    undoRounds keys (applyRounds keys b) = b := by
  fun_induction applyRounds keys b with
  | case1 b => rfl
  | case2 b key =>
    rw [undoRounds, Block.xor_xor, invShiftRows_shiftRows, invSubBytes_subBytes]
  | case3 b key keys hne ih =>
    rw [undoRounds, ih, Block.xor_xor, invMixColumns_mixColumns, invShiftRows_shiftRows,
      invSubBytes_subBytes]
    exact hne

/-- Decrypting undoes encrypting under the same key. -/
theorem Cipher.decrypt_encrypt (c : Cipher) (b : Block) : c.decrypt (c.encrypt b) = b := by
  rw [decrypt, encrypt, undoRounds_applyRounds, Block.xor_xor]

theorem finite_block : Finite Block := by
  have hbyte : Finite UInt8 := Finite.of_injective UInt8.toFin fun _ _ => UInt8.toFin_inj.1
  apply Finite.of_injective fun b : Block => b.get
  intro a b h
  exact Block.ext_get (congrFun h)

/-- Every block is the encryption of its decryption. -/
theorem Cipher.encrypt_decrypt (c : Cipher) (b : Block) : c.encrypt (c.decrypt b) = b := by
  have hfinite := finite_block
  have hinjective : Function.Injective c.encrypt :=
    Function.LeftInverse.injective c.decrypt_encrypt
  obtain ⟨a, rfl⟩ := Finite.surjective_of_injective hinjective b
  rw [decrypt_encrypt]

end PdfStream.Aes
