import PdfStream.Asn1.Value
import PdfStream.Error
import PdfStream.Modular

/-!
RSA private keys, read and written as a sequence of nine numbers, and the private operation on a
padded block.
-/
namespace PdfStream
open Der

structure PrivateKey where
  modulus : Nat
  publicExponent : Nat
  privateExponent : Nat
  p : Nat
  q : Nat
  deriving DecidableEq, Repr

namespace PrivateKey

/-- The two factors make up the modulus, and the exponents undo each other modulo each factor less
one. -/
def Consistent (key : PrivateKey) : Prop :=
  key.modulus % 2 = 1 ∧ key.publicExponent % 2 = 1 ∧ 2 ≤ key.publicExponent ∧
    key.publicExponent < 1 <<< 33 ∧ key.publicExponent < key.modulus ∧
    1 < key.p ∧ 1 < key.q ∧ key.p * key.q = key.modulus ∧
    key.privateExponent * key.publicExponent % (key.p - 1) = 1 % (key.p - 1) ∧
    key.privateExponent * key.publicExponent % (key.q - 1) = 1 % (key.q - 1)

instance (key : PrivateKey) : Decidable key.Consistent := by unfold Consistent; infer_instance

/-- The private exponent modulo a factor less one. -/
def exponentAt (key : PrivateKey) (factor : Nat) : Nat := key.privateExponent % (factor - 1)

/-- The inverse of the second factor modulo the first. -/
def coefficient? (key : PrivateKey) : Option Nat := Modular.inverse? key.p key.q

/-- The nine numbers, the first of which is the version. -/
def element (key : PrivateKey) (coefficient : Nat) : Element :=
  .sequence ([0, key.modulus, key.publicExponent, key.privateExponent, key.p, key.q,
    key.exponentAt key.p, key.exponentAt key.q, coefficient].map Element.ofNat)

/-- Reads the nine numbers; the last three follow from the others and are not looked at. -/
def ofElement? (e : Element) : Option PrivateKey := do
  match ← (← e.sequence?).mapM Element.nat? with
  | [0, modulus, publicExponent, privateExponent, p, q, _, _, _] =>
    some { modulus, publicExponent, privateExponent, p, q }
  | _ => none

/-- A key may be of any size. -/
def load (der : Bytes) : Except Error PrivateKey :=
  match (Element.whole? der).bind ofElement? with
  | some key => if key.Consistent then .ok key else .error (.cryptoEngine .privateKey)
  | none => .error (.cryptoEngine .privateKey)

/-- A key is written only with its coefficient. -/
def toDer (key : PrivateKey) : Except Error Bytes :=
  match key.coefficient? with
  | some coefficient => .ok (key.element coefficient).encode
  | none => .error (.cryptoEngine .privateKey)

/-- The bytes of the modulus. -/
def size (key : PrivateKey) : Nat := Bytes.width key.modulus

/-- What padding takes at least. -/
def overhead : Nat := 11

/-- A zero, a one, ones up to the size, a zero, the input. -/
def block (size : Nat) (input : Bytes) : Bytes :=
  [0x00, 0x01] ++ List.replicate (size - input.length - 3) 0xFF ++ [0x00] ++ input

/-- `c` to the private exponent: modulo each factor and put together, if the coefficient is
there. -/
def power (key : PrivateKey) (c : Nat) : Nat :=
  match key.coefficient? with
  | some coefficient =>
    let m₁ := Modular.power key.p c (key.exponentAt key.p)
    let m₂ := Modular.power key.q c (key.exponentAt key.q)
    let h := (((m₁ : Int) - m₂) * coefficient % key.p).toNat
    h * key.q + m₂
  | none => Modular.power key.modulus c key.privateExponent

/-- Pads the input and applies the private exponent. The public one must undo it, or nothing comes
out. -/
def transform (key : PrivateKey) (input : Bytes) : Except Error Bytes :=
  if key.size < input.length + overhead then
    .error (.cryptoEngine (.inputTooLong input.length key.size))
  else
    let c := Bytes.toNat (block key.size input)
    let s := key.power c
    if Modular.power key.modulus s key.publicExponent = c then .ok (Bytes.ofNat key.size s)
    else .error (.rsa .wrongResult)

end PrivateKey
end PdfStream
