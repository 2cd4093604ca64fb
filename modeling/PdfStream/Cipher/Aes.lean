import PdfStream.Bytes

/-!
The AES block cipher with 128- and 256-bit keys. A block is sixteen bytes, column by column; every
round layer stands beside its inverse.
-/
namespace PdfStream.Aes

def blockLength : Nat := 16

abbrev Block := Vector UInt8 16

namespace Block

/-- Missing bytes are zero. -/
def ofBytes (bytes : Bytes) : Block := Vector.ofFn fun i => bytes.getD i 0

def toBytes (b : Block) : Bytes := b.toList

def zero : Block := Vector.replicate 16 0

def xor (a b : Block) : Block := Vector.zipWith (· ^^^ ·) a b

@[simp] theorem length_toBytes (b : Block) : b.toBytes.length = 16 := by simp [toBytes]

end Block

set_option maxRecDepth 4000 in
/-- Inversion in the field of 256 elements followed by an affine map. -/
def substitution : Vector UInt8 256 := #v[
  0x63, 0x7c, 0x77, 0x7b, 0xf2, 0x6b, 0x6f, 0xc5, 0x30, 0x01, 0x67, 0x2b, 0xfe, 0xd7, 0xab, 0x76,
  0xca, 0x82, 0xc9, 0x7d, 0xfa, 0x59, 0x47, 0xf0, 0xad, 0xd4, 0xa2, 0xaf, 0x9c, 0xa4, 0x72, 0xc0,
  0xb7, 0xfd, 0x93, 0x26, 0x36, 0x3f, 0xf7, 0xcc, 0x34, 0xa5, 0xe5, 0xf1, 0x71, 0xd8, 0x31, 0x15,
  0x04, 0xc7, 0x23, 0xc3, 0x18, 0x96, 0x05, 0x9a, 0x07, 0x12, 0x80, 0xe2, 0xeb, 0x27, 0xb2, 0x75,
  0x09, 0x83, 0x2c, 0x1a, 0x1b, 0x6e, 0x5a, 0xa0, 0x52, 0x3b, 0xd6, 0xb3, 0x29, 0xe3, 0x2f, 0x84,
  0x53, 0xd1, 0x00, 0xed, 0x20, 0xfc, 0xb1, 0x5b, 0x6a, 0xcb, 0xbe, 0x39, 0x4a, 0x4c, 0x58, 0xcf,
  0xd0, 0xef, 0xaa, 0xfb, 0x43, 0x4d, 0x33, 0x85, 0x45, 0xf9, 0x02, 0x7f, 0x50, 0x3c, 0x9f, 0xa8,
  0x51, 0xa3, 0x40, 0x8f, 0x92, 0x9d, 0x38, 0xf5, 0xbc, 0xb6, 0xda, 0x21, 0x10, 0xff, 0xf3, 0xd2,
  0xcd, 0x0c, 0x13, 0xec, 0x5f, 0x97, 0x44, 0x17, 0xc4, 0xa7, 0x7e, 0x3d, 0x64, 0x5d, 0x19, 0x73,
  0x60, 0x81, 0x4f, 0xdc, 0x22, 0x2a, 0x90, 0x88, 0x46, 0xee, 0xb8, 0x14, 0xde, 0x5e, 0x0b, 0xdb,
  0xe0, 0x32, 0x3a, 0x0a, 0x49, 0x06, 0x24, 0x5c, 0xc2, 0xd3, 0xac, 0x62, 0x91, 0x95, 0xe4, 0x79,
  0xe7, 0xc8, 0x37, 0x6d, 0x8d, 0xd5, 0x4e, 0xa9, 0x6c, 0x56, 0xf4, 0xea, 0x65, 0x7a, 0xae, 0x08,
  0xba, 0x78, 0x25, 0x2e, 0x1c, 0xa6, 0xb4, 0xc6, 0xe8, 0xdd, 0x74, 0x1f, 0x4b, 0xbd, 0x8b, 0x8a,
  0x70, 0x3e, 0xb5, 0x66, 0x48, 0x03, 0xf6, 0x0e, 0x61, 0x35, 0x57, 0xb9, 0x86, 0xc1, 0x1d, 0x9e,
  0xe1, 0xf8, 0x98, 0x11, 0x69, 0xd9, 0x8e, 0x94, 0x9b, 0x1e, 0x87, 0xe9, 0xce, 0x55, 0x28, 0xdf,
  0x8c, 0xa1, 0x89, 0x0d, 0xbf, 0xe6, 0x42, 0x68, 0x41, 0x99, 0x2d, 0x0f, 0xb0, 0x54, 0xbb, 0x16]

set_option maxRecDepth 4000 in
def inverseSubstitution : Vector UInt8 256 := #v[
  0x52, 0x09, 0x6a, 0xd5, 0x30, 0x36, 0xa5, 0x38, 0xbf, 0x40, 0xa3, 0x9e, 0x81, 0xf3, 0xd7, 0xfb,
  0x7c, 0xe3, 0x39, 0x82, 0x9b, 0x2f, 0xff, 0x87, 0x34, 0x8e, 0x43, 0x44, 0xc4, 0xde, 0xe9, 0xcb,
  0x54, 0x7b, 0x94, 0x32, 0xa6, 0xc2, 0x23, 0x3d, 0xee, 0x4c, 0x95, 0x0b, 0x42, 0xfa, 0xc3, 0x4e,
  0x08, 0x2e, 0xa1, 0x66, 0x28, 0xd9, 0x24, 0xb2, 0x76, 0x5b, 0xa2, 0x49, 0x6d, 0x8b, 0xd1, 0x25,
  0x72, 0xf8, 0xf6, 0x64, 0x86, 0x68, 0x98, 0x16, 0xd4, 0xa4, 0x5c, 0xcc, 0x5d, 0x65, 0xb6, 0x92,
  0x6c, 0x70, 0x48, 0x50, 0xfd, 0xed, 0xb9, 0xda, 0x5e, 0x15, 0x46, 0x57, 0xa7, 0x8d, 0x9d, 0x84,
  0x90, 0xd8, 0xab, 0x00, 0x8c, 0xbc, 0xd3, 0x0a, 0xf7, 0xe4, 0x58, 0x05, 0xb8, 0xb3, 0x45, 0x06,
  0xd0, 0x2c, 0x1e, 0x8f, 0xca, 0x3f, 0x0f, 0x02, 0xc1, 0xaf, 0xbd, 0x03, 0x01, 0x13, 0x8a, 0x6b,
  0x3a, 0x91, 0x11, 0x41, 0x4f, 0x67, 0xdc, 0xea, 0x97, 0xf2, 0xcf, 0xce, 0xf0, 0xb4, 0xe6, 0x73,
  0x96, 0xac, 0x74, 0x22, 0xe7, 0xad, 0x35, 0x85, 0xe2, 0xf9, 0x37, 0xe8, 0x1c, 0x75, 0xdf, 0x6e,
  0x47, 0xf1, 0x1a, 0x71, 0x1d, 0x29, 0xc5, 0x89, 0x6f, 0xb7, 0x62, 0x0e, 0xaa, 0x18, 0xbe, 0x1b,
  0xfc, 0x56, 0x3e, 0x4b, 0xc6, 0xd2, 0x79, 0x20, 0x9a, 0xdb, 0xc0, 0xfe, 0x78, 0xcd, 0x5a, 0xf4,
  0x1f, 0xdd, 0xa8, 0x33, 0x88, 0x07, 0xc7, 0x31, 0xb1, 0x12, 0x10, 0x59, 0x27, 0x80, 0xec, 0x5f,
  0x60, 0x51, 0x7f, 0xa9, 0x19, 0xb5, 0x4a, 0x0d, 0x2d, 0xe5, 0x7a, 0x9f, 0x93, 0xc9, 0x9c, 0xef,
  0xa0, 0xe0, 0x3b, 0x4d, 0xae, 0x2a, 0xf5, 0xb0, 0xc8, 0xeb, 0xbb, 0x3c, 0x83, 0x53, 0x99, 0x61,
  0x17, 0x2b, 0x04, 0x7e, 0xba, 0x77, 0xd6, 0x26, 0xe1, 0x69, 0x14, 0x63, 0x55, 0x21, 0x0c, 0x7d]

def sub (b : UInt8) : UInt8 := substitution.get b.toFin

def invSub (b : UInt8) : UInt8 := inverseSubstitution.get b.toFin

def subBytes (b : Block) : Block := b.map sub

def invSubBytes (b : Block) : Block := b.map invSub

/-- Row r moves r columns to the left. -/
def shiftRows (b : Block) : Block :=
  Vector.ofFn fun i => b.get ⟨(5 * i.val) % 16, Nat.mod_lt _ (by decide)⟩

def invShiftRows (b : Block) : Block :=
  Vector.ofFn fun i => b.get ⟨(13 * i.val) % 16, Nat.mod_lt _ (by decide)⟩

/-- Multiplication by x modulo x^8 + x^4 + x^3 + x + 1. -/
def double (b : UInt8) : UInt8 := (b <<< 1) ^^^ ((b >>> 7) * 0x1b)

/-- Multiplication by a polynomial of degree below four, given by its bits. -/
def times (c b : UInt8) : UInt8 :=
  (c % 2 * b) ^^^ (c / 2 % 2 * double b) ^^^ (c / 4 % 2 * double (double b)) ^^^
    (c / 8 * double (double (double b)))

/-- Every column times the circulant matrix whose first row is given. -/
def mixWith (c0 c1 c2 c3 : UInt8) (b : Block) : Block :=
  Vector.ofFn fun i =>
    let cell := fun k : Nat => b.get ⟨i.val / 4 * 4 + (i.val + k) % 4, by omega⟩
    times c0 (cell 0) ^^^ times c1 (cell 1) ^^^ times c2 (cell 2) ^^^ times c3 (cell 3)

def mixColumns : Block → Block := mixWith 2 3 1 1

def invMixColumns : Block → Block := mixWith 14 11 13 9

/-- Word i of the key schedule of `size` key words, from the words before it. -/
def nextWord (size i : Nat) (words : Array Bytes) : Bytes :=
  let last := words.getD (i - 1) []
  let turned :=
    if i % size = 0 then
      let rotated := (last.drop 1 ++ last.take 1).map sub
      List.zipWith (· ^^^ ·) rotated (Nat.repeat double (i / size - 1) 1 :: [0, 0, 0])
    else if 6 < size ∧ i % size = 4 then last.map sub
    else last
  List.zipWith (· ^^^ ·) (words.getD (i - size) []) turned

/-- The key's words, extended to four a round key. -/
def schedule (key : Bytes) : Array Bytes :=
  let size := key.length / 4
  let first := (List.range size).map fun k => (key.drop (4 * k)).take 4
  (List.range (3 * size + 28)).foldl (fun words k =>
    words.push (nextWord size (size + k) words)) first.toArray

/-- A cipher with its key: the first round key, and one for each round. -/
structure Cipher where
  whitening : Block
  rounds : List Block
  deriving DecidableEq

def roundKey (words : Array Bytes) (k : Nat) : Block :=
  .ofBytes ((List.range 4).flatMap fun j => words.getD (4 * k + j) [])

/-- Ten rounds for a key of 16 bytes, fourteen for 32. -/
def Cipher.ofKey (key : Bytes) : Cipher :=
  let words := schedule key
  ⟨roundKey words 0, (List.range (key.length / 4 + 6)).map fun k => roundKey words (k + 1)⟩

/-- The last round does not mix columns. -/
def applyRounds : List Block → Block → Block
  | [], b => b
  | [key], b => (shiftRows (subBytes b)).xor key
  | key :: keys, b => applyRounds keys ((mixColumns (shiftRows (subBytes b))).xor key)

def undoRounds : List Block → Block → Block
  | [], b => b
  | [key], b => invSubBytes (invShiftRows (b.xor key))
  | key :: keys, b =>
    invSubBytes (invShiftRows (invMixColumns ((undoRounds keys b).xor key)))

def Cipher.encrypt (c : Cipher) (b : Block) : Block := applyRounds c.rounds (b.xor c.whitening)

def Cipher.decrypt (c : Cipher) (b : Block) : Block := (undoRounds c.rounds b).xor c.whitening

end PdfStream.Aes
