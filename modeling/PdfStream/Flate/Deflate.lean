import PdfStream.Flate.Adler
import PdfStream.Flate.Token
import PdfStream.Step

/-!
Writing a zlib stream: header, deflate blocks of at most 32 KiB, checksum. Level 0 stores the data;
higher levels search longer for references and use the fixed codes.
-/
namespace PdfStream.Flate

structure Deflate where
  level : Nat
  started : Bool := false
  checksum : Adler := {}
  /-- Data of the block that is coming in. -/
  pending : Array UInt8 := #[]
  /-- Bits that wait for a whole byte. -/
  held : List Bool := []

namespace Deflate

def blockLength : Nat := 32768

/-- Method 8, the largest window, and how hard the search was. -/
def header (level : Nat) : Bytes :=
  [0x78, if level ≤ 1 then 0x01 else if level ≤ 5 then 0x5E else if level = 6 then 0x9C else 0xDA]

def byteBits (bytes : Bytes) : List Bool := bytes.flatMap Bits.Order.lowFirst.ofByte

/-- Bits to the next byte boundary. -/
def fill (offset : Nat) : List Bool := List.replicate ((8 - offset % 8) % 8) false

def storedBlock (offset : Nat) (last : Bool) (data : Array UInt8) : List Bool :=
  [last, false, false] ++ fill (offset + 3) ++ Bits.lowFirst 16 data.size ++
    Bits.lowFirst 16 (65535 - data.size) ++ byteBits data.toList

def fixedBlock (depth : Nat) (last : Bool) (data : Array UInt8) : List Bool :=
  [last, true, false] ++ (Token.ofData depth data).flatMap Token.bits ++
    Token.literalWords.getD 256 []

def block (level offset : Nat) (last : Bool) (data : Array UInt8) : List Bool :=
  if level = 0 then storedBlock offset last data else fixedBlock (2 * level) last data

def writeBits (d : Deflate) (bits : List Bool) : Step Deflate :=
  let (bytes, held) := Bits.pack .lowFirst (d.held ++ bits)
  .write { d with held } bytes

def start (d : Deflate) : Step Deflate :=
  if d.started then .quiet d
  else { d with started := true }.writeBits (byteBits (header d.level))

/-- Writes the pending data as one block. -/
def flushBlock (d : Deflate) (last : Bool) : Step Deflate :=
  d.start.andThen fun d =>
    { d with pending := #[] }.writeBits (block d.level d.held.length last d.pending)

def addByte (d : Deflate) (b : UInt8) : Step Deflate :=
  let d := { d with checksum := d.checksum.addByte b, pending := d.pending.push b }
  if d.pending.size < blockLength then .quiet d else d.flushBlock false

/-- The longest span written. -/
def spanLength : Nat := 8192

def feed (d : Deflate) (data : Bytes) : Step Deflate :=
  (Step.run addByte d data).inSpans spanLength

/-- The last block, filled up to a byte, and the checksum. -/
def finish (d : Deflate) : Step Deflate :=
  ((d.flushBlock true).andThen fun d =>
    d.writeBits (fill d.held.length ++ byteBits (Bytes.ofNat 4 d.checksum.value))).inSpans
      spanLength

end Deflate
end PdfStream.Flate
