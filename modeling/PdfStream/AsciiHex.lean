import PdfStream.Step

/-!
The ASCIIHex filter: two uppercase digits a byte and a closing `>`. Reading takes digits in either
case, skips white space, ignores what follows `>` and completes an odd last digit with zero.
-/
namespace PdfStream

/-- White space of PDF text. -/
def isPdfBlank (b : UInt8) : Bool :=
  b == 0x20 || b == 0x09 || b == 0x0A || b == 0x0D || b == 0x0C || b == 0x00

structure AsciiHex where
  /-- The high digit that waits for its partner. -/
  high : Option UInt8 := none
  finished : Bool := false
  deriving DecidableEq, Repr

namespace AsciiHex

def eod : UInt8 := 0x3E

def encodeBlock (c : AsciiHex) (data : Bytes) : Step AsciiHex :=
  .write c (Hex.upper data)

def endEncode (c : AsciiHex) : Step AsciiHex := .write c [eod]

def beginDecode (_ : AsciiHex) : Step AsciiHex := .quiet {}

def readByte (c : AsciiHex) (b : UInt8) : Step AsciiHex :=
  if c.finished then .quiet c
  else
    match Hex.value? b with
    | some digit =>
      match c.high with
      | some high => .write { c with high := none } [high <<< 4 ||| digit]
      | none => .quiet { c with high := some digit }
    | none =>
      if isPdfBlank b then .quiet c
      else if b = eod then .quiet { c with finished := true }
      else .stop c (.decode (.hexCharacter b))

/-- A block that fails writes nothing. -/
def decodeBlock (c : AsciiHex) (data : Bytes) : Step AsciiHex :=
  (Step.run readByte c data).joined

def endDecode (c : AsciiHex) : Step AsciiHex :=
  match c.high with
  | some high => .write ⟨none, true⟩ [high <<< 4]
  | none => .quiet ⟨none, true⟩

end AsciiHex
end PdfStream
