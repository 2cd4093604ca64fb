import PdfStream.Digest.Basic

/-!
The SHA-2 digests. SHA-256 works on 32-bit words, SHA-384 and SHA-512 on 64-bit words; the constants
of the narrow form are the high halves of the wide one.
-/
namespace PdfStream.Digest.Sha2

structure Words (w : Nat) where
  a : BitVec w
  b : BitVec w
  c : BitVec w
  d : BitVec w
  e : BitVec w
  f : BitVec w
  g : BitVec w
  h : BitVec w
  deriving DecidableEq

namespace Words
variable {w : Nat}

def toList (s : Words w) : List (BitVec w) := [s.a, s.b, s.c, s.d, s.e, s.f, s.g, s.h]

def add (s t : Words w) : Words w :=
  ⟨s.a + t.a, s.b + t.b, s.c + t.c, s.d + t.d, s.e + t.e, s.f + t.f, s.g + t.g, s.h + t.h⟩

end Words

/-- Word width, constants and rotation amounts. The third amount of a schedule function shifts. -/
structure Variant where
  width : Nat
  constants : List (BitVec width)
  stateHigh : Nat × Nat × Nat
  stateLow : Nat × Nat × Nat
  scheduleFar : Nat × Nat × Nat
  scheduleNear : Nat × Nat × Nat

namespace Variant
variable (v : Variant)

def mix (r : Nat × Nat × Nat) (x : BitVec v.width) : BitVec v.width :=
  x.rotateRight r.1 ^^^ x.rotateRight r.2.1 ^^^ x.rotateRight r.2.2

def stir (r : Nat × Nat × Nat) (x : BitVec v.width) : BitVec v.width :=
  x.rotateRight r.1 ^^^ x.rotateRight r.2.1 ^^^ x >>> r.2.2

/-- The block's words, extended to one word a round. -/
def schedule (block : Bytes) : Array (BitVec v.width) :=
  let first := ((block.chunks (v.width / 8)).map (bigWord v.width)).toArray
  (List.range (v.constants.length - 16)).foldl (fun words i =>
    words.push (v.stir v.scheduleNear (words.getD (i + 14) 0) + words.getD (i + 9) 0 +
      v.stir v.scheduleFar (words.getD (i + 1) 0) + words.getD i 0)) first

def round (s : Words v.width) (kw : BitVec v.width × BitVec v.width) : Words v.width :=
  let choice := (s.e &&& s.f) ^^^ (~~~s.e &&& s.g)
  let majority := (s.a &&& s.b) ^^^ (s.a &&& s.c) ^^^ (s.b &&& s.c)
  let t := s.h + v.mix v.stateLow s.e + choice + kw.1 + kw.2
  ⟨t + v.mix v.stateHigh s.a + majority, s.a, s.b, s.c, s.d + t, s.e, s.f, s.g⟩

def compress (s : Words v.width) (block : Bytes) : Words v.width :=
  s.add ((v.constants.zip (v.schedule block).toList).foldl v.round s)

def digest (initial : Words v.width) (message : Bytes) : Bytes :=
  let blocks := (padded (2 * v.width) (v.width / 4) (Bytes.ofNat (v.width / 4)) message).chunks
    (2 * v.width)
  (blocks.foldl v.compress initial).toList.flatMap bigBytes

theorem length_digest (initial : Words v.width) (message : Bytes) :
    (v.digest initial message).length = 8 * (v.width / 8) := by
  simp [digest, Words.toList]
  omega

end Variant

def wideConstants : List (BitVec 64) := [
  0x428a2f98d728ae22, 0x7137449123ef65cd, 0xb5c0fbcfec4d3b2f, 0xe9b5dba58189dbbc,
  0x3956c25bf348b538, 0x59f111f1b605d019, 0x923f82a4af194f9b, 0xab1c5ed5da6d8118,
  0xd807aa98a3030242, 0x12835b0145706fbe, 0x243185be4ee4b28c, 0x550c7dc3d5ffb4e2,
  0x72be5d74f27b896f, 0x80deb1fe3b1696b1, 0x9bdc06a725c71235, 0xc19bf174cf692694,
  0xe49b69c19ef14ad2, 0xefbe4786384f25e3, 0x0fc19dc68b8cd5b5, 0x240ca1cc77ac9c65,
  0x2de92c6f592b0275, 0x4a7484aa6ea6e483, 0x5cb0a9dcbd41fbd4, 0x76f988da831153b5,
  0x983e5152ee66dfab, 0xa831c66d2db43210, 0xb00327c898fb213f, 0xbf597fc7beef0ee4,
  0xc6e00bf33da88fc2, 0xd5a79147930aa725, 0x06ca6351e003826f, 0x142929670a0e6e70,
  0x27b70a8546d22ffc, 0x2e1b21385c26c926, 0x4d2c6dfc5ac42aed, 0x53380d139d95b3df,
  0x650a73548baf63de, 0x766a0abb3c77b2a8, 0x81c2c92e47edaee6, 0x92722c851482353b,
  0xa2bfe8a14cf10364, 0xa81a664bbc423001, 0xc24b8b70d0f89791, 0xc76c51a30654be30,
  0xd192e819d6ef5218, 0xd69906245565a910, 0xf40e35855771202a, 0x106aa07032bbd1b8,
  0x19a4c116b8d2d0c8, 0x1e376c085141ab53, 0x2748774cdf8eeb99, 0x34b0bcb5e19b48a8,
  0x391c0cb3c5c95a63, 0x4ed8aa4ae3418acb, 0x5b9cca4f7763e373, 0x682e6ff3d6b2b8a3,
  0x748f82ee5defb2fc, 0x78a5636f43172f60, 0x84c87814a1f0ab72, 0x8cc702081a6439ec,
  0x90befffa23631e28, 0xa4506cebde82bde9, 0xbef9a3f7b2c67915, 0xc67178f2e372532b,
  0xca273eceea26619c, 0xd186b8c721c0c207, 0xeada7dd6cde0eb1e, 0xf57d4f7fee6ed178,
  0x06f067aa72176fba, 0x0a637dc5a2c898a6, 0x113f9804bef90dae, 0x1b710b35131c471b,
  0x28db77f523047d84, 0x32caab7b40c72493, 0x3c9ebe0a15c9bebc, 0x431d67c49c100d4c,
  0x4cc5d4becb3e42b6, 0x597f299cfc657e2a, 0x5fcb6fab3ad6faec, 0x6c44198c4a475817]

def wide : Variant :=
  ⟨64, wideConstants, (28, 34, 39), (14, 18, 41), (1, 8, 7), (19, 61, 6)⟩

def high (x : BitVec 64) : BitVec 32 := x.extractLsb' 32 32

def narrow : Variant :=
  ⟨32, (wideConstants.take 64).map high, (2, 13, 22), (6, 11, 25), (7, 18, 3), (17, 19, 10)⟩

def initial512 : Words 64 where
  a := 0x6a09e667f3bcc908
  b := 0xbb67ae8584caa73b
  c := 0x3c6ef372fe94f82b
  d := 0xa54ff53a5f1d36f1
  e := 0x510e527fade682d1
  f := 0x9b05688c2b3e6c1f
  g := 0x1f83d9abfb41bd6b
  h := 0x5be0cd19137e2179

def initial384 : Words 64 where
  a := 0xcbbb9d5dc1059ed8
  b := 0x629a292a367cd507
  c := 0x9159015a3070dd17
  d := 0x152fecd8f70e5939
  e := 0x67332667ffc00b31
  f := 0x8eb44a8768581511
  g := 0xdb0c2e0d64f98fa7
  h := 0x47b5481dbefa4fa4

def initial256 : Words 32 :=
  let s := initial512
  ⟨high s.a, high s.b, high s.c, high s.d, high s.e, high s.f, high s.g, high s.h⟩

end Sha2

def sha256 (message : Bytes) : Bytes := Sha2.narrow.digest Sha2.initial256 message

def sha512 (message : Bytes) : Bytes := Sha2.wide.digest Sha2.initial512 message

/-- The wide form from other initial words, cut to 48 bytes. -/
def sha384 (message : Bytes) : Bytes := (Sha2.wide.digest Sha2.initial384 message).take 48

@[simp] theorem length_sha256 (message : Bytes) : (sha256 message).length = 32 :=
  Sha2.narrow.length_digest _ _

@[simp] theorem length_sha512 (message : Bytes) : (sha512 message).length = 64 :=
  Sha2.wide.length_digest _ _

@[simp] theorem length_sha384 (message : Bytes) : (sha384 message).length = 48 := by
  have := Sha2.wide.length_digest Sha2.initial384 message
  simp only [sha384, List.length_take, this]
  rfl

end PdfStream.Digest
