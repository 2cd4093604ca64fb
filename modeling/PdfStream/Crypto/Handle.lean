import PdfStream.Cipher.Cbc
import PdfStream.Cipher.Rc4
import PdfStream.Digest

/-!
Ciphers and digests fetched from loaded providers. A handle builds only what its cipher and its
provider allow.
-/
namespace PdfStream

namespace CipherKind

def checkKeyLength (kind : CipherKind) (length : Nat) : Except Error Unit :=
  if kind.AcceptsKeyLength length then .ok ()
  else .error (.configuration (.keyLength kind length))

def ofMethod (method : String) : Except Error CipherKind :=
  match ofMethod? method with
  | some kind => .ok kind
  | none => .error (.configuration (.unsupportedMethod method))

end CipherKind

namespace HashAlgorithm

def digestKind (algorithm : HashAlgorithm) : Except Error DigestKind :=
  match algorithm.kind? with
  | some kind => .ok kind
  | none => .error (.configuration .unknownAlgorithm)

def digestLength (algorithm : HashAlgorithm) : Except Error Nat :=
  algorithm.digestKind.map DigestKind.outputLength

/-- The identifier of the hash in signatures. -/
def oid (algorithm : HashAlgorithm) : Except Error Oid :=
  algorithm.digestKind.map fun
    | .sha384 => .ofArcs [2, 16, 840, 1, 101, 3, 4, 2, 2]
    | .sha512 => .ofArcs [2, 16, 840, 1, 101, 3, 4, 2, 3]
    | _ => .ofArcs [2, 16, 840, 1, 101, 3, 4, 2, 1]

def ofText (text : String) : Except Error HashAlgorithm :=
  match ofText? text with
  | some algorithm => .ok algorithm
  | none => .error (.configuration (.unknownAlgorithmText text))

end HashAlgorithm

structure CipherHandle where
  kind : CipherKind
  provider : Provider
  deriving DecidableEq, Repr

namespace CipherHandle

/-- `wanted` lists the ciphers that would do; the first one names what is wanted. -/
def check (h : CipherHandle) (first : CipherKind) (wanted : List CipherKind) (key : Bytes) :
    Except Error Unit :=
  if h.kind ∉ wanted then .error (.usage (.handleMismatch h.kind first))
  else if ¬ h.provider.Provides h.kind then
    .error (.cryptoEngine (.notImplemented h.kind h.provider))
  else h.kind.checkKeyLength key.length

def rc4 (h : CipherHandle) (key : Bytes) : Except Error Rc4 := do
  h.check .rc4 [.rc4] key
  Rc4.ofKey key

def cbcEncryptor (h : CipherHandle) (key iv : Bytes) : Except Error Cbc.Encryptor := do
  h.check .aes128Cbc [.aes128Cbc, .aes256Cbc] key
  Cbc.Encryptor.create key iv

def cbcDecryptor (h : CipherHandle) (key iv : Bytes) : Except Error Cbc.Decryptor := do
  h.check .aes128Cbc [.aes128Cbc, .aes256Cbc] key
  Cbc.Decryptor.create key iv

end CipherHandle

structure DigestHandle where
  kind : DigestKind
  provider : Provider
  deriving DecidableEq, Repr

namespace DigestHandle

def digest (h : DigestHandle) (data : Bytes) : Bytes := h.kind.digest data

/-- The digest over the front of `buffer`, and its length. -/
def digestInto (h : DigestHandle) (data buffer : Bytes) : Nat × Bytes :=
  let out := h.digest data
  (out.length, out ++ buffer.drop out.length)

end DigestHandle

/-- The providers loaded, in order, until they are unloaded. -/
structure Registry where
  loaded : List Provider := []
  unloaded : Bool := false
  deriving DecidableEq, Repr

namespace Registry

def load (r : Registry) (provider : Provider) (enabled : Bool) : Except Error Registry :=
  if enabled then .ok { r with loaded := r.loaded ++ [provider] }
  else .error (.cryptoEngine (.providerDisabled provider))

def isLoaded (r : Registry) (provider : Provider) : Bool :=
  !r.unloaded && r.loaded.contains provider

def unload (r : Registry) : Registry := { r with unloaded := true }

def fetchCipher (r : Registry) (kind : CipherKind) (source : Provider) :
    Except Error CipherHandle :=
  if r.isLoaded source ∧ source.Provides kind then .ok ⟨kind, source⟩
  else .error (.cryptoEngine (.cipherUnavailable kind source))

def fetchDigest (r : Registry) (kind : DigestKind) (source : Provider) :
    Except Error DigestHandle :=
  if r.isLoaded source ∧ kind ∈ source.digests then .ok ⟨kind, source⟩
  else .error (.cryptoEngine (.digestUnavailable kind source))

/-- Both providers are needed, the legacy one first. -/
def create (legacy : Bool) : Except Error Registry := do
  ({} : Registry).load .legacy legacy >>= (·.load .default true)

end Registry
end PdfStream
