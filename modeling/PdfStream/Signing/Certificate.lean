import PdfStream.Asn1.Time
import PdfStream.Asn1.Value
import PdfStream.Error

/-!
X.509 certificates of the versions 1 to 3. Reading checks the form of every field, not what the
fields say of one another.
-/
namespace PdfStream
open Der

structure AlgorithmIdentifier where
  algorithm : Oid
  parameters : Option Element
  deriving DecidableEq, Repr

namespace AlgorithmIdentifier

def element (a : AlgorithmIdentifier) : Element :=
  .sequence (.ofOid a.algorithm :: a.parameters.toList)

def ofElement? (e : Element) : Option AlgorithmIdentifier := do
  match ← e.sequence? with
  | [oid] => return ⟨← oid.oid?, none⟩
  | [oid, parameters] => return ⟨← oid.oid?, some parameters⟩
  | _ => none

end AlgorithmIdentifier

/-- One part of a name, such as a country; its value may be of any type. -/
structure NamePart where
  oid : Oid
  value : Element
  deriving DecidableEq, Repr

namespace NamePart

def element (part : NamePart) : Element := .sequence [.ofOid part.oid, part.value]

def ofElement? (e : Element) : Option NamePart := do
  match ← e.sequence? with
  | [oid, value] => return ⟨← oid.oid?, value⟩
  | _ => none

end NamePart

/-- A path of sets of parts. -/
abbrev DistinguishedName := List (List NamePart)

namespace DistinguishedName

def element (name : DistinguishedName) : Element :=
  .sequence (name.map fun parts => .setOf (parts.map NamePart.element))

def ofElement? (e : Element) : Option DistinguishedName := do
  (← e.sequence?).mapM fun parts => do (← parts.setOf?).mapM NamePart.ofElement?

end DistinguishedName

structure Validity where
  notBefore : Time
  notAfter : Time
  deriving DecidableEq, Repr

namespace Validity

def element (v : Validity) : Element := .sequence [v.notBefore.element, v.notAfter.element]

def ofElement? (e : Element) : Option Validity := do
  match ← e.sequence? with
  | [notBefore, notAfter] => return ⟨← Time.ofElement? notBefore, ← Time.ofElement? notAfter⟩
  | _ => none

end Validity

structure PublicKeyInfo where
  algorithm : AlgorithmIdentifier
  key : BitString
  deriving DecidableEq, Repr

namespace PublicKeyInfo

def element (info : PublicKeyInfo) : Element :=
  .sequence [info.algorithm.element, .ofBits Tag.bitString info.key]

def ofElement? (e : Element) : Option PublicKeyInfo := do
  match ← e.sequence? with
  | [algorithm, key] =>
    return ⟨← AlgorithmIdentifier.ofElement? algorithm, ← key.bits? Tag.bitString⟩
  | _ => none

end PublicKeyInfo

structure Extension where
  oid : Oid
  critical : Bool
  value : Bytes
  deriving DecidableEq, Repr

namespace Extension

/-- Only a critical extension says whether it is one. -/
def element (x : Extension) : Element :=
  .sequence ([.ofOid x.oid] ++ (if x.critical then [.ofBool true] else []) ++ [.ofOctets x.value])

def ofElement? (e : Element) : Option Extension := do
  match ← e.sequence? with
  | [oid, value] => return ⟨← oid.oid?, false, ← value.octets?⟩
  | [oid, critical, value] =>
    if (← critical.bool?) then return ⟨← oid.oid?, true, ← value.octets?⟩ else none
  | _ => none

end Extension

inductive CertificateVersion where
  | v1 | v2 | v3
  deriving DecidableEq, Repr

namespace CertificateVersion

def number : CertificateVersion → Nat
  | .v1 => 0
  | .v2 => 1
  | .v3 => 2

/-- The first version goes unsaid. -/
def elements : CertificateVersion → List Element
  | .v1 => []
  | v => [.wrap (Tag.explicit 0) [.ofNat v.number]]

/-- The version of a list of fields, and the fields after it. -/
def ofFields? : List Element → Option (CertificateVersion × List Element)
  | [] => some (.v1, [])
  | field :: fields =>
    if field ∈ elements .v2 then some (.v2, fields)
    else if field ∈ elements .v3 then some (.v3, fields)
    else some (.v1, field :: fields)

end CertificateVersion

/-- What the issuer signs. -/
structure CertificateBody where
  version : CertificateVersion
  /-- The octets of the serial number, of either sign. -/
  serial : Bytes
  signature : AlgorithmIdentifier
  issuer : DistinguishedName
  validity : Validity
  subject : DistinguishedName
  publicKey : PublicKeyInfo
  issuerId : Option BitString
  subjectId : Option BitString
  extensions : Option (List Extension)
  deriving DecidableEq, Repr

namespace CertificateBody

/-- Twenty octets, and one for the sign. -/
def maxSerial : Nat := 21

/-- The field in front, if it has the tag. -/
def takeTagged (tag : UInt8) : List Element → Option Element × List Element
  | [] => (none, [])
  | field :: fields => if field.tag = tag then (some field, fields) else (none, field :: fields)

def extensionsElement (extensions : List Extension) : Element :=
  .wrap (Tag.explicit 3) [.sequence (extensions.map Extension.element)]

def extensionsOf? (e : Element) : Option (List Extension) := do
  match ← e.parts? (Tag.explicit 3) with
  | [list] => (← list.sequence?).mapM Extension.ofElement?
  | _ => none

def element (b : CertificateBody) : Element :=
  .sequence (b.version.elements ++
    [⟨Tag.integer, b.serial⟩, b.signature.element, b.issuer.element, b.validity.element,
      b.subject.element, b.publicKey.element] ++
    (b.issuerId.map (Element.ofBits (Tag.implicit 1))).toList ++
    (b.subjectId.map (Element.ofBits (Tag.implicit 2))).toList ++
    (b.extensions.map extensionsElement).toList)

def ofElement? (e : Element) : Option CertificateBody := do
  let (version, fields) ← CertificateVersion.ofFields? (← e.sequence?)
  match fields with
  | serial :: signature :: issuer :: validity :: subject :: publicKey :: rest =>
    let serial ← serial.integer?
    guard (serial.length ≤ maxSerial)
    let (issuerId, rest) := takeTagged (Tag.implicit 1) rest
    let (subjectId, rest) := takeTagged (Tag.implicit 2) rest
    let (extensions, rest) := takeTagged (Tag.explicit 3) rest
    guard (rest = [])
    return {
      version
      serial
      signature := ← AlgorithmIdentifier.ofElement? signature
      issuer := ← DistinguishedName.ofElement? issuer
      validity := ← Validity.ofElement? validity
      subject := ← DistinguishedName.ofElement? subject
      publicKey := ← PublicKeyInfo.ofElement? publicKey
      issuerId := ← issuerId.mapM (·.bits? (Tag.implicit 1))
      subjectId := ← subjectId.mapM (·.bits? (Tag.implicit 2))
      extensions := ← extensions.mapM extensionsOf? }
  | _ => none

end CertificateBody

structure Certificate where
  body : CertificateBody
  signatureAlgorithm : AlgorithmIdentifier
  signature : BitString
  deriving DecidableEq, Repr

namespace Certificate

def element (c : Certificate) : Element :=
  .sequence [c.body.element, c.signatureAlgorithm.element, .ofBits Tag.bitString c.signature]

def ofElement? (e : Element) : Option Certificate := do
  match ← e.sequence? with
  | [body, algorithm, signature] =>
    return ⟨← CertificateBody.ofElement? body, ← AlgorithmIdentifier.ofElement? algorithm,
      ← signature.bits? Tag.bitString⟩
  | _ => none

def load (der : Bytes) : Except Error Certificate :=
  match (Element.ofBytes? der).bind ofElement? with
  | some c => .ok c
  | none => .error (.asn1 .malformed)

def encode (c : Certificate) : Bytes := c.element.encode

end Certificate
end PdfStream
