/-!
Decimal integers as text: an optional sign, then ASCII digits, within 64 signed bits.
-/
namespace PdfStream.Decimal

def digit? (c : Char) : Option Nat :=
  if '0' ≤ c ∧ c ≤ '9' then some (c.toNat - '0'.toNat) else none

/-- The number written by `digits`, continuing from `n`. -/
def natFrom (n : Nat) : List Char → Option Nat
  | [] => some n
  | c :: rest => do natFrom (n * 10 + (← digit? c)) rest

/-- At least one digit. -/
def nat? : List Char → Option Nat
  | [] => none
  | digits => natFrom 0 digits

def signed? : List Char → Option Int
  | '-' :: digits => (nat? digits).map fun n => -(n : Int)
  | '+' :: digits => (nat? digits).map fun n => (n : Int)
  | digits => (nat? digits).map fun n => (n : Int)

/-- A signed number of 64 bits. -/
def int64? (cs : List Char) : Option Int :=
  (signed? cs).filter fun i => -(1 <<< 63 : Nat) ≤ i && i < (1 <<< 63 : Nat)

end PdfStream.Decimal
