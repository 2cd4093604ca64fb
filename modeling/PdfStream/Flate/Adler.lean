import PdfStream.Bytes

/-!
The Adler-32 checksum: two sums modulo 65521.
-/
namespace PdfStream.Flate

structure Adler where
  low : Nat := 1
  high : Nat := 0
  deriving DecidableEq, Repr

namespace Adler

def addByte (s : Adler) (b : UInt8) : Adler :=
  let low := (s.low + b.toNat) % 65521
  ⟨low, (s.high + low) % 65521⟩

def add (s : Adler) (data : Bytes) : Adler := data.foldl addByte s

def value (s : Adler) : Nat := s.high * 65536 + s.low

theorem add_append (s : Adler) (xs ys : Bytes) : s.add (xs ++ ys) = (s.add xs).add ys := by
  simp [add, List.foldl_append]

end Adler
end PdfStream.Flate
