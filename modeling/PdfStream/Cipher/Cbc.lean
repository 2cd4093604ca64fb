import PdfStream.Cipher.Aes
import PdfStream.Cipher.Padding
import PdfStream.Step

/-!
AES in CBC mode with padding, fed in pieces of any size. The encryptor keeps an unfinished block;
the decryptor also keeps the last whole one, since it may carry the padding.
-/
namespace PdfStream.Cbc
open Aes (Block)

structure Encryptor where
  keyBits : Nat
  cipher : Aes.Cipher
  /-- The ciphertext block before the next one; the IV at first. -/
  previous : Block
  pending : Bytes := []
  deriving DecidableEq

structure Decryptor where
  keyBits : Nat
  cipher : Aes.Cipher
  previous : Block
  pending : Bytes := []
  deriving DecidableEq

def checkLengths (key iv : Bytes) : Except Error Unit :=
  if iv.length ≠ 16 then .error (.configuration (.aesIvLength iv.length))
  else if key.length ≠ 16 ∧ key.length ≠ 32 then
    .error (.configuration (.aesKeyLength key.length))
  else .ok ()

namespace Encryptor

def create (key iv : Bytes) : Except Error Encryptor := do
  checkLengths key iv
  return ⟨8 * key.length, .ofKey key, .ofBytes iv, []⟩

def encryptBlock (e : Encryptor) (block : Bytes) : Step Encryptor :=
  let out := e.cipher.encrypt ((Block.ofBytes block).xor e.previous)
  .write { e with previous := out, pending := [] } out.toBytes

def addByte (e : Encryptor) (b : UInt8) : Step Encryptor :=
  let pending := e.pending ++ [b]
  if pending.length = 16 then encryptBlock e pending else .quiet { e with pending := pending }

def update (e : Encryptor) (data : Bytes) : Step Encryptor := (Step.run addByte e data).joined

/-- Always one more block. -/
def finish (e : Encryptor) : Step Encryptor := encryptBlock e (Padding.pad e.pending)

def describe (e : Encryptor) : String :=
  s!"AesCbcEncryptor \x7b key_bits: {e.keyBits}, pending: {e.pending.length}, .. \x7d"

end Encryptor

namespace Decryptor

def create (key iv : Bytes) : Except Error Decryptor := do
  checkLengths key iv
  return ⟨8 * key.length, .ofKey key, .ofBytes iv, []⟩

/-- The plaintext of one block, and the decryptor after it. -/
def decryptBlock (d : Decryptor) (block : Bytes) : Bytes × Decryptor :=
  let cipherBlock := Block.ofBytes block
  (((d.cipher.decrypt cipherBlock).xor d.previous).toBytes,
    { d with previous := cipherBlock, pending := [] })

/-- A whole block is released by the byte after it. -/
def addByte (d : Decryptor) (b : UInt8) : Step Decryptor :=
  if d.pending.length = 16 then
    let (plain, d) := d.decryptBlock d.pending
    .write { d with pending := [b] } plain
  else .quiet { d with pending := d.pending ++ [b] }

def update (d : Decryptor) (data : Bytes) : Step Decryptor := (Step.run addByte d data).joined

/-- Decrypts the block held back and removes its padding. -/
def finish (d : Decryptor) : Step Decryptor :=
  if d.pending.length ≠ 16 then
    .stop { d with pending := [] } (.decode (.aesPartialBlock (d.pending.length % 16)))
  else
    let (plain, d) := d.decryptBlock d.pending
    match Padding.unpad plain with
    | .ok data => .write d data
    | .error e => .stop d e

def describe (d : Decryptor) : String :=
  s!"AesCbcDecryptor \x7b key_bits: {d.keyBits}, pending: {d.pending.length}, .. \x7d"

end Decryptor
end PdfStream.Cbc
