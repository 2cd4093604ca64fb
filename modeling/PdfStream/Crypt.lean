import PdfStream.Crypto.Context
import PdfStream.DecodeParms

/-!
The Crypt filter: RC4 or AES in CBC mode under the caller's key. AES data begin with the IV. The
cipher is bound when a session begins; a decode session may name another one.
-/
namespace PdfStream
namespace Crypt

inductive Session where
  | idle
  | rc4 (stream : Rc4)
  | aesEncrypt (encryptor : Cbc.Encryptor)
  /-- The IV is coming in. -/
  | aesIv (iv : Bytes)
  | aesDecrypt (decryptor : Cbc.Decryptor)
  deriving DecidableEq

end Crypt

structure Crypt where
  cipher : CipherKind
  key : Bytes
  /-- The IV of encode sessions; none means a fresh one each time. -/
  iv : Option Bytes := none
  /-- What the latest begin bound. -/
  handle : Option CipherHandle := none
  session : Crypt.Session := .idle
  deriving DecidableEq

namespace Crypt

def notStarted (c : Crypt) (direction : Direction) : Step Crypt :=
  .stop c (.usage (.cryptNotStarted direction))

/-- Binds a cipher that takes the key. -/
def resolve (c : Crypt) (cipher : CipherKind) (ctx : CryptoContext) :
    CryptoContext × Except Error CipherHandle :=
  match cipher.checkKeyLength c.key.length with
  | .error e => (ctx, .error e)
  | .ok () => ctx.selectCipher cipher

/-- A length in bits, or in bytes when it is no likely number of bits. -/
def lengthInBytes (length : Int) : Int :=
  if 40 ≤ length ∧ length % 8 = 0 then length / 8 else length

/-- The cipher of a decode session. -/
def decodeCipher (c : Crypt) (parms : Option DecodeParms) : Except Error CipherKind :=
  match parms with
  | none => .ok c.cipher
  | some parms => do
    let cipher ← match ← parms.name? "CFM" with
      | some method => CipherKind.ofMethod method
      | none => pure c.cipher
    if (parms.get? "Length").isSome then
      let length ← parms.intD "Length" 0
      if lengthInBytes length ≠ c.key.length then
        throw (.configuration (.lengthMismatch length c.key.length))
    return cipher

/-- Opens an encode session under a bound cipher. -/
def openEncode (c : Crypt) (handle : CipherHandle) (ctx : CryptoContext) :
    CryptoContext × Step Crypt :=
  match handle.kind with
  | .rc4 =>
    match handle.rc4 c.key with
    | .ok stream => (ctx, .quiet { c with session := .rc4 stream })
    | .error e => (ctx, .stop c e)
  | .aes128Cbc | .aes256Cbc =>
    let (ctx, iv) := match c.iv with
      | some iv => (ctx, iv)
      | none => ctx.drawIv
    match handle.cbcEncryptor c.key iv with
    | .ok encryptor => (ctx, .write { c with session := .aesEncrypt encryptor } iv)
    | .error e => (ctx, .stop c e)

def beginEncode (c : Crypt) (ctx : CryptoContext) : CryptoContext × Step Crypt :=
  let c := { c with session := .idle }
  match c.resolve c.cipher ctx with
  | (ctx, .error e) => (ctx, .stop c e)
  | (ctx, .ok handle) => openEncode { c with handle := some handle } handle ctx

def encodeBlock (c : Crypt) (data : Bytes) : Step Crypt :=
  match c.session with
  | .rc4 stream =>
    let (stream, out) := stream.process data
    .write { c with session := .rc4 stream } out
  | .aesEncrypt encryptor =>
    (encryptor.update data).map fun e => { c with session := .aesEncrypt e }
  | _ => c.notStarted .encode

def endEncode (c : Crypt) : Step Crypt :=
  let closed := { c with session := .idle }
  match c.session with
  | .rc4 _ => .quiet closed
  | .aesEncrypt encryptor => encryptor.finish.map fun _ => closed
  | _ => closed.notStarted .encode

/-- Opens a decode session under a bound cipher. -/
def openDecode (c : Crypt) (handle : CipherHandle) : Step Crypt :=
  match handle.kind with
  | .rc4 =>
    match handle.rc4 c.key with
    | .ok stream => .quiet { c with session := .rc4 stream }
    | .error e => .stop c e
  | .aes128Cbc | .aes256Cbc => .quiet { c with session := .aesIv [] }

def beginDecode (c : Crypt) (parms : Option DecodeParms) (ctx : CryptoContext) :
    CryptoContext × Step Crypt :=
  let c := { c with session := .idle }
  match c.decodeCipher parms with
  | .error e => (ctx, .stop c e)
  | .ok cipher =>
    match c.resolve cipher ctx with
    | (ctx, .error e) => (ctx, .stop c e)
    | (ctx, .ok handle) => (ctx, openDecode { c with handle := some handle } handle)

/-- The decryptor of the cipher that the begin bound. -/
def decryptor (c : Crypt) (iv : Bytes) : Except Error Cbc.Decryptor :=
  match c.handle with
  | some handle => handle.cbcDecryptor c.key iv
  | none => .error (.usage .cryptUnbound)

def decodeWith (c : Crypt) (decryptor : Cbc.Decryptor) (data : Bytes) : Step Crypt :=
  (decryptor.update data).map fun d => { c with session := .aesDecrypt d }

def decodeBlock (c : Crypt) (data : Bytes) : Step Crypt :=
  match c.session with
  | .rc4 stream =>
    let (stream, out) := stream.process data
    .write { c with session := .rc4 stream } out
  | .aesIv iv =>
    let missing := 16 - iv.length
    let iv := iv ++ data.take missing
    if iv.length < 16 then .quiet { c with session := .aesIv iv }
    else
      match c.decryptor iv with
      | .error e => .stop { c with session := .aesIv iv } e
      | .ok decryptor => c.decodeWith decryptor (data.drop missing)
  | .aesDecrypt decryptor => c.decodeWith decryptor data
  | _ => c.notStarted .decode

def endDecode (c : Crypt) : Step Crypt :=
  let closed := { c with session := .idle }
  match c.session with
  | .rc4 _ => .quiet closed
  | .aesIv iv => .stop closed (.decode (.aesPartialIv iv.length))
  | .aesDecrypt decryptor => decryptor.finish.map fun _ => closed
  | _ => closed.notStarted .decode

end Crypt
end PdfStream
