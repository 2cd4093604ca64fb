import PdfStream.Asn1.Oid

/-!
The ciphers and digests of PDF security, the providers that supply them, and the hashes a signature
may use.
-/
namespace PdfStream

inductive CipherKind where
  | rc4 | aes128Cbc | aes256Cbc
  deriving DecidableEq, Repr

inductive DigestKind where
  | md5 | sha1 | sha256 | sha384 | sha512
  deriving DecidableEq, Repr

inductive Provider where
  | default | legacy
  deriving DecidableEq, Repr

namespace CipherKind

def all : List CipherKind := [.rc4, .aes128Cbc, .aes256Cbc]

def name : CipherKind → String
  | .rc4 => "RC4"
  | .aes128Cbc => "AES-128-CBC"
  | .aes256Cbc => "AES-256-CBC"

/-- The cipher of a crypt filter method. -/
def ofMethod? (method : String) : Option CipherKind :=
  if method = "V2" then some .rc4
  else if method = "AESV2" then some .aes128Cbc
  else if method = "AESV3" then some .aes256Cbc
  else none

def blockSize : CipherKind → Nat
  | .rc4 => 1
  | .aes128Cbc | .aes256Cbc => 16

def ivLength : CipherKind → Nat
  | .rc4 => 0
  | .aes128Cbc | .aes256Cbc => 16

def AcceptsKeyLength : CipherKind → Nat → Prop
  | .rc4, n => 1 ≤ n ∧ n ≤ 256
  | .aes128Cbc, n => n = 16
  | .aes256Cbc, n => n = 32

instance (kind : CipherKind) (n : Nat) : Decidable (kind.AcceptsKeyLength n) := by
  cases kind <;> unfold AcceptsKeyLength <;> infer_instance

/-- The one provider that supplies the cipher. -/
def home : CipherKind → Provider
  | .rc4 => .legacy
  | .aes128Cbc | .aes256Cbc => .default

end CipherKind

namespace DigestKind

def all : List DigestKind := [.md5, .sha1, .sha256, .sha384, .sha512]

def name : DigestKind → String
  | .md5 => "MD5"
  | .sha1 => "SHA1"
  | .sha256 => "SHA2-256"
  | .sha384 => "SHA2-384"
  | .sha512 => "SHA2-512"

def outputLength : DigestKind → Nat
  | .md5 => 16
  | .sha1 => 20
  | .sha256 => 32
  | .sha384 => 48
  | .sha512 => 64

end DigestKind

namespace Provider

def name : Provider → String
  | .default => "default"
  | .legacy => "legacy"

def ciphers : Provider → List CipherKind
  | .default => [.aes128Cbc, .aes256Cbc]
  | .legacy => [.rc4]

def digests : Provider → List DigestKind
  | .default => DigestKind.all
  | .legacy => []

def Provides (provider : Provider) (kind : CipherKind) : Prop := kind ∈ provider.ciphers

instance (provider : Provider) (kind : CipherKind) : Decidable (provider.Provides kind) := by
  unfold Provides; infer_instance

theorem provides_iff {provider : Provider} {kind : CipherKind} :
    provider.Provides kind ↔ provider = kind.home := by
  cases provider <;> cases kind <;> decide

end Provider

/-- The hash of a signature; `unknown` stands for a selector nobody recognised. -/
inductive HashAlgorithm where
  | sha256 | sha384 | sha512 | unknown
  deriving DecidableEq, Repr

namespace HashAlgorithm

instance : Inhabited HashAlgorithm := ⟨.sha256⟩

def name : HashAlgorithm → String
  | .sha256 => "SHA-256"
  | .sha384 => "SHA-384"
  | .sha512 => "SHA-512"
  | .unknown => "unknown"

def kind? : HashAlgorithm → Option DigestKind
  | .sha256 => some .sha256
  | .sha384 => some .sha384
  | .sha512 => some .sha512
  | .unknown => none

/-- Letters in either case and digits count; anything else is punctuation. -/
def ofText? (text : String) : Option HashAlgorithm :=
  let key := String.ofList ((text.toList.filter Char.isAlphanum).map Char.toLower)
  if key = "sha256" ∨ key = "sha2256" then some .sha256
  else if key = "sha384" ∨ key = "sha2384" then some .sha384
  else if key = "sha512" ∨ key = "sha2512" then some .sha512
  else none

end HashAlgorithm
end PdfStream
