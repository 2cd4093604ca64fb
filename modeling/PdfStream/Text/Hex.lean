import PdfStream.Bytes

/-!
Hexadecimal text: two digits a byte, in either case.
-/
namespace PdfStream.Hex

/-- The digit for `value`, with `ten` as the first letter. -/
def digit (ten value : UInt8) : UInt8 :=
  if value < 10 then 0x30 + value else ten + (value - 10)

/-- The value of a digit in either case. -/
def value? (c : UInt8) : Option UInt8 :=
  if 0x30 ≤ c ∧ c ≤ 0x39 then some (c - 0x30)
  else if 0x61 ≤ c ∧ c ≤ 0x66 then some (c - 0x61 + 10)
  else if 0x41 ≤ c ∧ c ≤ 0x46 then some (c - 0x41 + 10)
  else none

def upper (bytes : Bytes) : Bytes :=
  bytes.flatMap fun (b : UInt8) => [digit 0x41 (b >>> 4), digit 0x41 (b &&& 15)]

def lower (bytes : Bytes) : Bytes :=
  bytes.flatMap fun (b : UInt8) => [digit 0x61 (b >>> 4), digit 0x61 (b &&& 15)]

/-- `0x` and two lowercase digits. -/
def literal (b : UInt8) : String :=
  "0x" ++ Bytes.toText (lower [b])

/-- Why a text is no hexadecimal byte string. -/
inductive Fault where
  | oddLength
  | invalidDigit (byte : UInt8) (position : Nat)
  deriving DecidableEq, Repr

/-- Pairs of digits from `position` on; the first bad digit is reported. -/
def decodePairs (position : Nat) : Bytes → Except Fault Bytes
  | high :: low :: rest => do
    let some h := value? high | throw (.invalidDigit high position)
    let some l := value? low | throw (.invalidDigit low (position + 1))
    return (h <<< 4 ||| l) :: (← decodePairs (position + 2) rest)
  | _ => return []

def decode (text : Bytes) : Except Fault Bytes :=
  if text.length % 2 = 1 then throw .oddLength else decodePairs 0 text

end PdfStream.Hex
