import PdfStream.Digest.Basic

/-!
The SHA-1 digest: five words, four passes of twenty rounds.
-/
namespace PdfStream.Digest
namespace Sha1

structure Words where
  a : BitVec 32
  b : BitVec 32
  c : BitVec 32
  d : BitVec 32
  e : BitVec 32
  deriving DecidableEq

def initial : Words := ⟨0x67452301, 0xefcdab89, 0x98badcfe, 0x10325476, 0xc3d2e1f0⟩

/-- The block's sixteen words, extended to eighty. -/
def schedule (block : Bytes) : Array (BitVec 32) :=
  (List.range 64).foldl (fun words i =>
    words.push ((words.getD (i + 13) 0 ^^^ words.getD (i + 8) 0 ^^^ words.getD (i + 2) 0 ^^^
      words.getD i 0).rotateLeft 1)) ((block.chunks 4).map (bigWord 32)).toArray

/-- Mixing function and constant of a round. -/
def select (s : Words) (i : Nat) : BitVec 32 × BitVec 32 :=
  match i / 20 with
  | 0 => ((s.b &&& s.c) ||| (~~~s.b &&& s.d), 0x5a827999)
  | 1 => (s.b ^^^ s.c ^^^ s.d, 0x6ed9eba1)
  | 2 => ((s.b &&& s.c) ||| (s.b &&& s.d) ||| (s.c &&& s.d), 0x8f1bbcdc)
  | _ => (s.b ^^^ s.c ^^^ s.d, 0xca62c1d6)

def round (s : Words) (wi : BitVec 32 × Nat) : Words :=
  let (mixed, constant) := select s wi.2
  ⟨s.a.rotateLeft 5 + mixed + s.e + constant + wi.1, s.a, s.b.rotateLeft 30, s.c, s.d⟩

def compress (s : Words) (block : Bytes) : Words :=
  let t := (schedule block).toList.zipIdx.foldl round s
  ⟨s.a + t.a, s.b + t.b, s.c + t.c, s.d + t.d, s.e + t.e⟩

def Words.bytes (s : Words) : Bytes := [s.a, s.b, s.c, s.d, s.e].flatMap bigBytes

end Sha1

def sha1 (message : Bytes) : Bytes :=
  (((padded 64 8 (Bytes.ofNat 8) message).chunks 64).foldl Sha1.compress Sha1.initial).bytes

@[simp] theorem length_sha1 (message : Bytes) : (sha1 message).length = 20 := by
  simp [sha1, Sha1.Words.bytes]

end PdfStream.Digest
