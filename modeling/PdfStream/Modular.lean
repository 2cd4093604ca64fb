/-!
Arithmetic modulo a number: powers by repeated squaring, and inverses by Euclid's algorithm.
-/
namespace PdfStream.Modular

/-- `base ^ exponent` modulo `modulus`. -/
def power (modulus base exponent : Nat) : Nat :=
  if exponent = 0 then 1 % modulus
  else
    let root := power modulus (base * base % modulus) (exponent / 2)
    if exponent % 2 = 0 then root else root * base % modulus
termination_by exponent

/-- Two integers that combine `a` and `b` to their greatest common divisor. -/
def combination (a b : Nat) : Int × Int :=
  if _h : b = 0 then (1, 0)
  else
    let (x, y) := combination b (a % b)
    (y, x - (a / b : Nat) * y)
termination_by b
decreasing_by exact Nat.mod_lt _ (Nat.pos_of_ne_zero _h)

theorem combination_eq (a b : Nat) :
    a * (combination a b).1 + b * (combination a b).2 = Nat.gcd a b := by
  induction b using Nat.strongRecOn generalizing a with
  | ind b ih =>
    rw [combination]
    split
    · rename_i h
      simp [h]
    · rename_i h
      have hstep := ih (a % b) (Nat.mod_lt _ (Nat.pos_of_ne_zero h)) b
      have hgcd : Nat.gcd a b = Nat.gcd b (a % b) := by
        rw [Nat.gcd_comm a b, Nat.gcd_rec b a, Nat.gcd_comm]
      have hdiv : (a : Int) = b * (a / b : Nat) + (a % b : Nat) := by
        exact_mod_cast (Nat.div_add_mod a b).symm
      rw [hgcd, ← hstep]
      generalize combination b (a % b) = xy
      simp only [hdiv, Int.mul_sub, Int.add_mul, Int.mul_assoc]
      omega

/-- The number below `modulus` whose product with `a` leaves the remainder one. -/
def inverse? (modulus a : Nat) : Option Nat :=
  if Nat.gcd a modulus = 1 then some ((combination a modulus).1 % modulus).toNat else none

end PdfStream.Modular
