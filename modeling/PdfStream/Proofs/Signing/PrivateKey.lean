import Mathlib.NumberTheory.LucasLehmer
import PdfStream.Proofs.Bytes
import PdfStream.Proofs.Modular
import PdfStream.Signing.PrivateKey

/-!
What the private operation gives is undone by the public exponent, for every input that fits.
-/
namespace PdfStream.PrivateKey
open Bytes

theorem consistent_of_load {der : Bytes} {key : PrivateKey} (h : load der = .ok key) :
    key.Consistent := by
  unfold load at h
  split at h
  next loaded _ =>
    split at h
    next hconsistent =>
      cases h
      exact hconsistent
    next => cases h
  next => cases h

section
variable {size : Nat} {input : Bytes}

theorem block_eq (size : Nat) (input : Bytes) : block size input =
    0x00 :: 0x01 :: (List.replicate (size - input.length - 3) 0xFF ++ 0x00 :: input) := by
  simp only [block, List.cons_append, List.nil_append, List.append_assoc]

theorem length_block (h : input.length + overhead ≤ size) : (block size input).length = size := by
  have hpadding : overhead = 11 := rfl
  rw [block_eq, List.length_cons, List.length_cons, List.length_append, List.length_replicate,
    List.length_cons]
  omega

/-- The block begins with a zero. -/
theorem toNat_block_lt (h : input.length + overhead ≤ size) :
    toNat (block size input) < 256 ^ (size - 1) := by
  have hlength := length_block h
  rw [block_eq] at hlength ⊢
  generalize 0x01 :: (List.replicate (size - input.length - 3) 0xFF ++ 0x00 :: input) = rest
    at hlength ⊢
  have hrest : rest.length = size - 1 := by
    rw [← hlength, List.length_cons, Nat.add_sub_cancel]
  have hzero : toNat (0x00 :: rest) = toNat rest := by
    rw [← List.singleton_append, toNat_append]
    exact (congrArg (· + toNat rest) (Nat.zero_mul _)).trans (Nat.zero_add _)
  rw [hzero, ← hrest]
  exact toNat_lt rest

end

section
variable {key : PrivateKey}

theorem Consistent.modulus_ne_zero (h : key.Consistent) : key.modulus ≠ 0 := by
  have := h.1
  omega

theorem power_eq_recombined {coefficient : Nat} (h : key.coefficient? = some coefficient)
    (c : Nat) : key.power c = Modular.recombined key.p key.q coefficient
      (Modular.power key.p c (key.exponentAt key.p))
      (Modular.power key.q c (key.exponentAt key.q)) := by
  rw [power, h]
  rfl

theorem Consistent.power_lt (h : key.Consistent) (c : Nat) : key.power c < key.modulus := by
  have hmodulus := Nat.pos_of_ne_zero h.modulus_ne_zero
  obtain ⟨-, -, -, -, -, hp, hq, hproduct, -⟩ := h
  cases hcoefficient : key.coefficient? with
  | some coefficient =>
    rw [power_eq_recombined hcoefficient, ← hproduct]
    refine Modular.recombined_lt (by omega) ?_
    rw [Modular.power_eq]
    exact Nat.mod_lt _ (by omega)
  | none =>
    rw [power, hcoefficient]
    exact (Modular.power_eq _ _ _).trans_lt (Nat.mod_lt _ hmodulus)

/-- The exponents undo each other modulo a prime factor. -/
theorem power_exponentAt_modEq {factor : Nat} (hprime : factor.Prime) (hodd : factor ≠ 2)
    (hexponents : key.privateExponent * key.publicExponent % (factor - 1) = 1 % (factor - 1))
    (c : Nat) :
    Modular.power factor c (key.exponentAt factor) ^ key.publicExponent ≡ c [MOD factor] := by
  have hexponent :
      key.exponentAt factor * key.publicExponent % (factor - 1) = 1 % (factor - 1) := by
    rw [exponentAt, Nat.mod_mul_mod, hexponents]
  calc Modular.power factor c (key.exponentAt factor) ^ key.publicExponent
      ≡ (c ^ key.exponentAt factor) ^ key.publicExponent [MOD factor] := by
        rw [Modular.power_eq]
        exact (Nat.mod_modEq _ _).pow _
    _ = c ^ (key.exponentAt factor * key.publicExponent) := (pow_mul c _ _).symm
    _ ≡ c [MOD factor] := Modular.pow_modEq_self hprime hodd hexponent c

theorem Consistent.power_pow_modEq (h : key.Consistent) (hp : key.p.Prime) (hq : key.q.Prime)
    (hne : key.p ≠ key.q) (c : Nat) :
    key.power c ^ key.publicExponent ≡ c [MOD key.modulus] := by
  obtain ⟨hmodulus, -, -, -, -, -, -, hproduct, hexponentp, hexponentq⟩ := h
  have hodd {factor : Nat} (hdvd : factor ∣ key.modulus) : factor ≠ 2 := by
    rintro rfl
    omega
  have hcoprime : key.p.Coprime key.q := (Nat.coprime_primes hp hq).2 hne
  obtain ⟨coefficient, hcoefficient⟩ := Modular.exists_inverse? hcoprime.symm
  have hinverse := Modular.mul_inverse? hp.pos hcoefficient
  rw [power_eq_recombined hcoefficient, ← hproduct]
  refine (Nat.modEq_and_modEq_iff_modEq_mul hcoprime).1 ⟨?_, ?_⟩
  · exact ((Modular.recombined_modEq_left hp.pos hinverse).pow _).trans
      (power_exponentAt_modEq hp (hodd ⟨key.q, hproduct.symm⟩) hexponentp c)
  · exact (Modular.recombined_modEq_right.pow _).trans
      (power_exponentAt_modEq hq (hodd ⟨key.p, by rw [mul_comm, hproduct]⟩) hexponentq c)

theorem Consistent.toNat_block_lt_modulus (h : key.Consistent) {input : Bytes}
    (hfits : input.length + overhead ≤ key.size) : toNat (block key.size input) < key.modulus :=
  (toNat_block_lt hfits).trans_le (pow_width_le h.modulus_ne_zero)

section
variable {input signature : Bytes}

theorem transform_of_long (h : key.size < input.length + overhead) :
    key.transform input = .error (.cryptoEngine (.inputTooLong input.length key.size)) :=
  if_pos h

theorem transform_eq_ok_iff (h : input.length + overhead ≤ key.size) :
    key.transform input = .ok signature ↔
      key.power (toNat (block key.size input)) ^ key.publicExponent % key.modulus =
        toNat (block key.size input) ∧
      ofNat key.size (key.power (toNat (block key.size input))) = signature := by
  rw [transform, if_neg (Nat.not_lt.2 h), ← Modular.power_eq]
  dsimp only
  split
  next hcheck => rw [Except.ok.injEq, and_iff_right hcheck]
  next hcheck => exact iff_of_false nofun fun hboth => hcheck hboth.1

theorem Consistent.toNat_ofNat_power (h : key.Consistent) (c : Nat) :
    toNat (ofNat key.size (key.power c)) = key.power c :=
  toNat_ofNat_of_lt ((h.power_lt c).trans (lt_pow_width key.modulus))

theorem Consistent.signs (h : key.Consistent) (hfits : input.length + overhead ≤ key.size)
    (hsignature : key.transform input = .ok signature) :
    signature.length = key.size ∧ toNat signature < key.modulus ∧
      toNat signature ^ key.publicExponent % key.modulus = toNat (block key.size input) := by
  obtain ⟨hcheck, rfl⟩ := (transform_eq_ok_iff hfits).1 hsignature
  rw [h.toNat_ofNat_power]
  exact ⟨length_ofNat _ _, h.power_lt _, hcheck⟩

theorem Consistent.exists_signature (h : key.Consistent)
    (hfits : input.length + overhead ≤ key.size) (hp : key.p.Prime) (hq : key.q.Prime)
    (hne : key.p ≠ key.q) : ∃ signature, key.transform input = .ok signature := by
  refine ⟨_, (transform_eq_ok_iff hfits).2 ⟨?_, rfl⟩⟩
  calc key.power (toNat (block key.size input)) ^ key.publicExponent % key.modulus
      = toNat (block key.size input) % key.modulus := h.power_pow_modEq hp hq hne _
    _ = toNat (block key.size input) := Nat.mod_eq_of_lt (h.toNat_block_lt_modulus hfits)

end

end

/-- An input that leaves no room for the padding is refused. Whatever comes out for another input is
a signature of its padded block, and something does come out if the factors are distinct primes. -/
theorem transform_signs {der : Bytes} {key : PrivateKey} (hload : load der = .ok key)
    (input : Bytes) :
    256 ^ (key.size - 1) ≤ key.modulus ∧ key.modulus < 256 ^ key.size ∧
    (key.size < input.length + 11 →
      ∃ reason, key.transform input = .error (.cryptoEngine reason)) ∧
    (input.length + 11 ≤ key.size → ∃ fill, 8 ≤ fill ∧ ∃ padded,
      padded = [0x00, 0x01] ++ List.replicate fill 0xFF ++ [0x00] ++ input ∧
      padded.length = key.size ∧
      (∀ signature, key.transform input = .ok signature →
        signature.length = key.size ∧ toNat signature < key.modulus ∧
        toNat signature ^ key.publicExponent % key.modulus = toNat padded) ∧
      (key.p.Prime → key.q.Prime → key.p ≠ key.q →
        ∃ signature, key.transform input = .ok signature)) := by
  have hkey := consistent_of_load hload
  refine ⟨pow_width_le hkey.modulus_ne_zero, lt_pow_width key.modulus,
    fun hlong => ⟨_, transform_of_long hlong⟩, fun hfits => ?_⟩
  refine ⟨key.size - input.length - 3, by omega, block key.size input, rfl, length_block hfits,
    fun signature hsignature => ?_, fun hp hq hne => ?_⟩
  · exact hkey.signs hfits hsignature
  · exact hkey.exists_signature hfits hp hq hne

/-- A key with Mersenne primes as factors. Its modulus leaves room for one byte of input. -/
def mersenneKey : PrivateKey where
  modulus := mersenne 31 * mersenne 61
  publicExponent := 17
  privateExponent := 1763291712928118903
  p := mersenne 31
  q := mersenne 61

def mersenneDer : Bytes := [
  0x30, 0x44, 0x02, 0x01, 0x00, 0x02, 0x0C, 0x0F, 0xFF, 0xFF, 0xFF, 0xDF, 0xFF, 0xFF, 0xFF, 0x80,
  0x00, 0x00, 0x01, 0x02, 0x01, 0x11, 0x02, 0x08, 0x18, 0x78, 0x78, 0x78, 0x78, 0x78, 0x78, 0x77,
  0x02, 0x04, 0x7F, 0xFF, 0xFF, 0xFF, 0x02, 0x08, 0x1F, 0xFF, 0xFF, 0xFF, 0xFF, 0xFF, 0xFF, 0xFF,
  0x02, 0x04, 0x5A, 0x5A, 0x5A, 0x59, 0x02, 0x08, 0x18, 0x78, 0x78, 0x78, 0x78, 0x78, 0x78, 0x77,
  0x02, 0x04, 0x7F, 0xFF, 0xFF, 0xFD]

theorem transform_signs_mersenne :
    load mersenneDer = .ok mersenneKey ∧ ∃ signature,
      mersenneKey.transform [7] = .ok signature ∧ signature.length = 12 ∧
      toNat signature ^ 17 % (mersenne 31 * mersenne 61) =
        toNat [0, 1, 0xFF, 0xFF, 0xFF, 0xFF, 0xFF, 0xFF, 0xFF, 0xFF, 0, 7] := by
  have hload : load mersenneDer = .ok mersenneKey := by decide +kernel
  have hsize : mersenneKey.size = 12 := by decide +kernel
  obtain ⟨-, -, -, hshort⟩ := transform_signs hload [7]
  obtain ⟨fill, -, padded, hpadded, hlength, hsigns, hexists⟩ := hshort (Nat.le_of_eq hsize.symm)
  obtain ⟨signature, hsignature⟩ := hexists
    (lucas_lehmer_sufficiency 31 (by decide) (by norm_num))
    (lucas_lehmer_sufficiency 61 (by decide) (by norm_num)) (by decide +kernel)
  obtain ⟨hbytes, -, hpower⟩ := hsigns signature hsignature
  have hfill : fill = 8 := by
    rw [hpadded, hsize] at hlength
    simpa using hlength
  rw [hpadded, hfill] at hpower
  exact ⟨hload, signature, hsignature, hbytes.trans hsize, hpower⟩

end PdfStream.PrivateKey
