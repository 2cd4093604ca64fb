import PdfStream.Digest.Basic

/-!
The MD5 digest: four words, four passes of sixteen rounds, little-endian throughout.
-/
namespace PdfStream.Digest
namespace Md5

structure Words where
  a : BitVec 32
  b : BitVec 32
  c : BitVec 32
  d : BitVec 32
  deriving DecidableEq

def initial : Words := ⟨0x67452301, 0xefcdab89, 0x98badcfe, 0x10325476⟩

/-- The i-th is the integer part of 2^32 times the sine of i + 1, sign dropped. -/
def sines : List (BitVec 32) := [
  0xd76aa478, 0xe8c7b756, 0x242070db, 0xc1bdceee, 0xf57c0faf, 0x4787c62a, 0xa8304613, 0xfd469501,
  0x698098d8, 0x8b44f7af, 0xffff5bb1, 0x895cd7be, 0x6b901122, 0xfd987193, 0xa679438e, 0x49b40821,
  0xf61e2562, 0xc040b340, 0x265e5a51, 0xe9b6c7aa, 0xd62f105d, 0x02441453, 0xd8a1e681, 0xe7d3fbc8,
  0x21e1cde6, 0xc33707d6, 0xf4d50d87, 0x455a14ed, 0xa9e3e905, 0xfcefa3f8, 0x676f02d9, 0x8d2a4c8a,
  0xfffa3942, 0x8771f681, 0x6d9d6122, 0xfde5380c, 0xa4beea44, 0x4bdecfa9, 0xf6bb4b60, 0xbebfbc70,
  0x289b7ec6, 0xeaa127fa, 0xd4ef3085, 0x04881d05, 0xd9d4d039, 0xe6db99e5, 0x1fa27cf8, 0xc4ac5665,
  0xf4292244, 0x432aff97, 0xab9423a7, 0xfc93a039, 0x655b59c3, 0x8f0ccc92, 0xffeff47d, 0x85845dd1,
  0x6fa87e4f, 0xfe2ce6e0, 0xa3014314, 0x4e0811a1, 0xf7537e82, 0xbd3af235, 0x2ad7d2bb, 0xeb86d391]

/-- The rotations of a pass repeat every four rounds. -/
def rotations : List (List Nat) :=
  [[7, 12, 17, 22], [5, 9, 14, 20], [4, 11, 16, 23], [6, 10, 15, 21]]

/-- Mixing function and message word of a round. -/
def select (s : Words) (i : Nat) : BitVec 32 × Nat :=
  match i / 16 with
  | 0 => ((s.b &&& s.c) ||| (~~~s.b &&& s.d), i)
  | 1 => ((s.d &&& s.b) ||| (~~~s.d &&& s.c), (5 * i + 1) % 16)
  | 2 => (s.b ^^^ s.c ^^^ s.d, (3 * i + 5) % 16)
  | _ => (s.c ^^^ (s.b ||| ~~~s.d), 7 * i % 16)

def round (words : Array (BitVec 32)) (s : Words) (ki : BitVec 32 × Nat) : Words :=
  let (mixed, at_) := select s ki.2
  let turn := ((rotations.getD (ki.2 / 16) []).getD (ki.2 % 4) 0)
  let sum := s.a + mixed + ki.1 + words.getD at_ 0
  ⟨s.d, s.b + sum.rotateLeft turn, s.b, s.c⟩

def compress (s : Words) (block : Bytes) : Words :=
  let words := ((block.chunks 4).map (littleWord 32)).toArray
  let t := sines.zipIdx.foldl (round words) s
  ⟨s.a + t.a, s.b + t.b, s.c + t.c, s.d + t.d⟩

def Words.bytes (s : Words) : Bytes := [s.a, s.b, s.c, s.d].flatMap littleBytes

end Md5

def md5 (message : Bytes) : Bytes :=
  let length := fun n => (Bytes.ofNat 8 n).reverse
  (((padded 64 8 length message).chunks 64).foldl Md5.compress Md5.initial).bytes

@[simp] theorem length_md5 (message : Bytes) : (md5 message).length = 16 := by
  simp [md5, Md5.Words.bytes]

end PdfStream.Digest
