import Mathlib.Algebra.Group.Nat.Even
import Mathlib.Data.Int.ModEq
import Mathlib.FieldTheory.Finite.Basic
import PdfStream.Modular

/-!
Repeated squaring computes powers, and Euclid's algorithm inverses. Powers modulo a prime come round
to their base, and a number is put together from what it is modulo two factors.
-/
namespace PdfStream.Modular

theorem power_eq (modulus base exponent : Nat) :
    power modulus base exponent = base ^ exponent % modulus := by
  induction exponent using Nat.strongRecOn generalizing base with
  | ind exponent ih =>
    rw [power]
    split
    · rename_i h
      rw [h, Nat.pow_zero]
    · rename_i h
      have hsplit : exponent = 2 * (exponent / 2) + exponent % 2 := by omega
      have hroot : power modulus (base * base % modulus) (exponent / 2) =
          base ^ (2 * (exponent / 2)) % modulus := by
        rw [ih _ (by omega), ← Nat.pow_mod, Nat.pow_mul, Nat.pow_two]
      simp only [hroot]
      split
      · rename_i heven
        congr 2
        omega
      · rename_i hodd
        have : exponent = 2 * (exponent / 2) + 1 := by omega
        rw [Nat.mod_mul_mod, ← Nat.pow_succ, Nat.succ_eq_add_one, ← this]

theorem exists_inverse? {modulus a : Nat} (h : a.Coprime modulus) :
    ∃ x, inverse? modulus a = some x := by
  rw [inverse?, if_pos h]
  exact ⟨_, rfl⟩

theorem mul_inverse? {modulus a x : Nat} (hpos : 0 < modulus) (h : inverse? modulus a = some x) :
    a * x ≡ 1 [MOD modulus] := by
  unfold inverse? at h
  split at h
  next hgcd =>
    have hcombination := combination_eq a modulus
    rw [hgcd, Nat.cast_one] at hcombination
    have hx : (x : ℤ) = (combination a modulus).1 % modulus := by
      rw [← Option.some.inj h, Int.toNat_of_nonneg (Int.emod_nonneg _ (by omega))]
    rw [← Int.natCast_modEq_iff]
    push_cast
    calc (a * x : ℤ) ≡ a * (combination a modulus).1 [ZMOD modulus] := by
          rw [hx]
          exact (Int.mod_modEq _ _).mul_left _
      _ ≡ a * (combination a modulus).1 + modulus * (combination a modulus).2 [ZMOD modulus] :=
          (Int.modEq_add_fac_self).symm
      _ = 1 := hcombination
  next => cases h

theorem inverse?_lt {modulus a x : Nat} (hpos : 0 < modulus) (h : inverse? modulus a = some x) :
    x < modulus := by
  unfold inverse? at h
  split at h
  next =>
    have hlt := Int.emod_lt_of_pos (combination a modulus).1 (Int.natCast_pos.2 hpos)
    have hx := Option.some.inj h
    omega
  next => cases h

/-- Multiples of the prime are included: they stay zero. -/
theorem pow_modEq_self {prime exponent : Nat} (hprime : prime.Prime) (hodd : prime ≠ 2)
    (hexponent : exponent % (prime - 1) = 1 % (prime - 1)) (c : Nat) :
    c ^ exponent ≡ c [MOD prime] := by
  have htwo := hprime.two_le
  have hone : exponent % (prime - 1) = 1 := by
    rw [hexponent, Nat.mod_eq_of_lt (by omega)]
  have hsplit : exponent = (prime - 1) * (exponent / (prime - 1)) + 1 := by
    conv_lhs => rw [← Nat.div_add_mod exponent (prime - 1), hone]
  by_cases hdvd : prime ∣ c
  · have hpow : prime ∣ c ^ exponent := by
      rw [hsplit]
      exact hdvd.trans (dvd_pow_self c (Nat.succ_ne_zero _))
    exact ((Nat.modEq_zero_iff_dvd).2 hpow).trans ((Nat.modEq_zero_iff_dvd).2 hdvd).symm
  · have hfermat := Nat.ModEq.pow_card_sub_one_eq_one hprime
      ((Nat.Prime.coprime_iff_not_dvd hprime).2 hdvd).symm
    calc c ^ exponent = (c ^ (prime - 1)) ^ (exponent / (prime - 1)) * c := by
          conv_lhs => rw [hsplit]
          rw [pow_succ, pow_mul]
      _ ≡ 1 ^ (exponent / (prime - 1)) * c [MOD prime] := (hfermat.pow _).mul_right c
      _ = c := by rw [one_pow, one_mul]

/-- The number below `p * q` that is `m₁` modulo `p` and `m₂` modulo `q`: `m₂` and a multiple of
`q`. -/
def recombined (p q inverse m₁ m₂ : Nat) : Nat :=
  (((m₁ : Int) - m₂) * inverse % p).toNat * q + m₂

section
variable {p q inverse m₁ m₂ : Nat}

theorem recombined_lt (hp : 0 < p) (hm : m₂ < q) : recombined p q inverse m₁ m₂ < p * q := by
  have htimes : (((m₁ : ℤ) - m₂) * inverse % p).toNat < p := by
    have hlt := Int.emod_lt_of_pos ((m₁ - m₂) * inverse) (show (0 : ℤ) < p by omega)
    omega
  calc recombined p q inverse m₁ m₂ < (((m₁ : ℤ) - m₂) * inverse % p).toNat * q + q :=
        Nat.add_lt_add_left hm _
    _ = ((((m₁ : ℤ) - m₂) * inverse % p).toNat + 1) * q := (Nat.succ_mul _ q).symm
    _ ≤ p * q := Nat.mul_le_mul_right q htimes

theorem recombined_modEq_right : recombined p q inverse m₁ m₂ ≡ m₂ [MOD q] :=
  Nat.mul_add_mod_self_right _ q m₂

theorem recombined_modEq_left (hp : 0 < p) (hinverse : q * inverse ≡ 1 [MOD p]) :
    recombined p q inverse m₁ m₂ ≡ m₁ [MOD p] := by
  rw [recombined, ← Int.natCast_modEq_iff]
  rw [← Int.natCast_modEq_iff] at hinverse
  push_cast at hinverse ⊢
  rw [Int.toNat_of_nonneg (Int.emod_nonneg _ (by omega))]
  calc ((m₁ - m₂) * inverse % p * q + m₂ : ℤ)
      ≡ (m₁ - m₂) * inverse * q + m₂ [ZMOD p] := ((Int.mod_modEq _ _).mul_right _).add_right _
    _ = (m₁ - m₂) * (q * inverse) + m₂ := by ring
    _ ≡ (m₁ - m₂) * 1 + m₂ [ZMOD p] := (hinverse.mul_left _).add_right _
    _ = m₁ := by ring

end

end PdfStream.Modular
