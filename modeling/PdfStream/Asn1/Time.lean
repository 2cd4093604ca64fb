import PdfStream.Asn1.Der
import PdfStream.Calendar

/-!
Times as text: two digits for each part, and a `Z`. The short form leaves out the century.
-/
namespace PdfStream

inductive TimeForm where
  | utc | generalized
  deriving DecidableEq, Repr

structure Time where
  form : TimeForm
  date : CivilTime
  deriving DecidableEq, Repr

namespace Time
open Der

/-- The short form before 2050, the long one from then on. -/
def ofCivil (date : CivilTime) : Time :=
  ⟨if date.year < 2050 then .utc else .generalized, date⟩

def twoDigits (n : Nat) : Bytes :=
  [UInt8.ofNat (0x30 + n / 10), UInt8.ofNat (0x30 + n % 10)]

/-- The year without its century. -/
def shortYear (year : Nat) : Nat := year % 100

/-- The year meant by two digits: 1950 to 2049. -/
def ofShortYear (year : Nat) : Nat := if year < 50 then 2000 + year else 1900 + year

def parts : Time → List Nat
  | ⟨.utc, c⟩ => [shortYear c.year, c.month, c.day, c.hour, c.minute, c.second]
  | ⟨.generalized, c⟩ =>
    [c.year / 100, c.year % 100, c.month, c.day, c.hour, c.minute, c.second]

def text (t : Time) : Bytes := t.parts.flatMap twoDigits ++ [0x5A]

def tag : TimeForm → UInt8
  | .utc => Tag.utcTime
  | .generalized => Tag.generalizedTime

def element (t : Time) : Element := ⟨tag t.form, t.text⟩

def digit? (b : UInt8) : Option Nat :=
  if 0x30 ≤ b ∧ b ≤ 0x39 then some (b - 0x30).toNat else none

/-- Pairs of digits up to the `Z`. -/
def parts? : Bytes → Option (List Nat)
  | [0x5A] => some []
  | high :: low :: rest => do
    let n := (← digit? high) * 10 + (← digit? low)
    return n :: (← parts? rest)
  | _ => none

def ofParts? : TimeForm → List Nat → Option Time
  | .utc, [year, month, day, hour, minute, second] =>
    some ⟨.utc, { year := ofShortYear year, month, day, hour, minute, second }⟩
  | .generalized, [century, year, month, day, hour, minute, second] =>
    some ⟨.generalized, { year := century * 100 + year, month, day, hour, minute, second }⟩
  | _, _ => none

def ofText? (form : TimeForm) (text : Bytes) : Option Time := do
  let t ← ofParts? form (← parts? text)
  if t.date.IsValid then some t else none

def ofElement? (e : Element) : Option Time :=
  if e.tag = Tag.utcTime then ofText? .utc e.content
  else if e.tag = Tag.generalizedTime then ofText? .generalized e.content
  else none

end Time
end PdfStream
