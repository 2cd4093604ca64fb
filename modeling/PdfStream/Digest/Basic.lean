import PdfStream.Bytes

/-!
What the digests share: padding a message to whole blocks, and words of fixed width.
-/
namespace PdfStream
namespace Digest

/-- The message, a one bit, zeros up to a block boundary less the length, and the bit length. -/
def padded (block lengthBytes : Nat) (length : Nat → Bytes) (message : Bytes) : Bytes :=
  let used := message.length + 1 + lengthBytes
  message ++ 0x80 :: List.replicate ((block - used % block) % block) 0 ++
    length (8 * message.length)

def bigWord (w : Nat) (bytes : Bytes) : BitVec w := BitVec.ofNat w (Bytes.toNat bytes)

def littleWord (w : Nat) (bytes : Bytes) : BitVec w := BitVec.ofNat w (Bytes.toNat bytes.reverse)

def bigBytes {w : Nat} (x : BitVec w) : Bytes := Bytes.ofNat (w / 8) x.toNat

def littleBytes {w : Nat} (x : BitVec w) : Bytes := (Bytes.ofNat (w / 8) x.toNat).reverse

@[simp] theorem length_bigBytes {w : Nat} (x : BitVec w) : (bigBytes x).length = w / 8 := by
  simp [bigBytes]

@[simp] theorem length_littleBytes {w : Nat} (x : BitVec w) :
    (littleBytes x).length = w / 8 := by
  simp [littleBytes]

end Digest
end PdfStream
