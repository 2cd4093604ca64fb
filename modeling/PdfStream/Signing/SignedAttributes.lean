import PdfStream.Asn1.Attribute
import PdfStream.Asn1.Time
import PdfStream.Crypto.Context

/-!
The attributes a signature covers. No type occurs twice, and their encoding is a set, so the order
in which they were added does not show.
-/
namespace PdfStream
open Der

namespace Attribute

def contentTypeOid : Oid := .ofArcs [1, 2, 840, 113549, 1, 9, 3]

def messageDigestOid : Oid := .ofArcs [1, 2, 840, 113549, 1, 9, 4]

def signingTimeOid : Oid := .ofArcs [1, 2, 840, 113549, 1, 9, 5]

def signingCertificateOid : Oid := .ofArcs [1, 2, 840, 113549, 1, 9, 16, 2, 47]

/-- The type of plain content. -/
def dataOid : Oid := .ofArcs [1, 2, 840, 113549, 1, 7, 1]

def contentType : Attribute := single contentTypeOid (.ofOid dataOid)

def messageDigest (digest : Bytes) : Except Error Attribute :=
  if digest.length ≤ maxLength then .ok (single messageDigestOid (.ofOctets digest))
  else .error (.asn1 .tooLong)

def signingTime (time : Instant) : Except Error Attribute :=
  match time.civil? with
  | some date => .ok (single signingTimeOid (Time.ofCivil date).element)
  | none => .error (.asn1 .timeOutOfRange)

/-- The hash of a certificate and its algorithm, which goes unsaid if it is SHA-256. -/
def certificateId (algorithm : HashAlgorithm) (oid : Oid) (hash : Bytes) : Element :=
  let named := if algorithm = .sha256 then [] else [.sequence [.ofOid oid]]
  .sequence (named ++ [.ofOctets hash])

/-- Refers to the signer's certificate by its hash. -/
def signingCertificate (algorithm : HashAlgorithm) (hash : Bytes) : Except Error Attribute := do
  let expected ← algorithm.digestLength
  if hash.length ≠ expected then
    throw (.configuration (.certificateHashLength algorithm expected hash.length))
  let oid ← algorithm.oid
  return single signingCertificateOid (.sequence [.sequence [certificateId algorithm oid hash]])

def signingCertificateFor (ctx : CryptoContext) (algorithm : HashAlgorithm)
    (certificate : Bytes) : CryptoContext × Except Error Attribute :=
  let (ctx, hash) := ctx.computeDigest algorithm certificate
  (ctx, hash.bind (signingCertificate algorithm))

end Attribute

structure SignedAttributes where
  inOrder : List Attribute := []
  deriving DecidableEq, Repr

namespace SignedAttributes

def get? (s : SignedAttributes) (oid : Oid) : Option Attribute :=
  s.inOrder.find? fun a => a.oid = oid

def add (s : SignedAttributes) (a : Attribute) : Except Error SignedAttributes :=
  match s.get? a.oid with
  | some _ => .error (.usage (.attributePresent a.oid))
  | none => .ok ⟨s.inOrder ++ [a]⟩

def length (s : SignedAttributes) : Nat := s.inOrder.length

def isEmpty (s : SignedAttributes) : Bool := s.inOrder.isEmpty

def oids (s : SignedAttributes) : List Oid := s.inOrder.map Attribute.oid

def encode (s : SignedAttributes) : Bytes :=
  (Element.setOf (s.inOrder.map Attribute.element)).encode

/-- The bytes that a signature covers. -/
def toDer (s : SignedAttributes) : Except Error Bytes :=
  if s.encode.length ≤ maxLength then .ok s.encode else .error (.asn1 .tooLong)

def ofList (attributes : List Attribute) : Except Error SignedAttributes :=
  attributes.foldlM add {}

/-- What the signature of a document covers: content type, time, digest and certificate. -/
def forContent (ctx : CryptoContext) (content certificate : Bytes) (algorithm : HashAlgorithm)
    (time : Instant) : CryptoContext × Except Error SignedAttributes :=
  let (ctx, digest) := ctx.computeDigest algorithm content
  let early := digest.bind fun digest => do
    return [Attribute.contentType, ← Attribute.signingTime time, ← Attribute.messageDigest digest]
  match early with
  | .error e => (ctx, .error e)
  | .ok attributes =>
    let (ctx, last) := Attribute.signingCertificateFor ctx algorithm certificate
    (ctx, last.bind fun last => ofList (attributes ++ [last]))

end SignedAttributes
end PdfStream
