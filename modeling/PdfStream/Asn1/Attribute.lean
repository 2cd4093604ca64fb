import PdfStream.Asn1.Value
import PdfStream.Error

/-!
Attributes: a type, and a set of values of that type.
-/
namespace PdfStream
open Der

structure Attribute where
  oid : Oid
  values : List Element
  deriving DecidableEq, Repr

namespace Attribute

def single (oid : Oid) (value : Element) : Attribute := ⟨oid, [value]⟩

def element (a : Attribute) : Element :=
  .sequence [.ofOid a.oid, .setOf a.values]

def encode (a : Attribute) : Bytes := a.element.encode

def ofElement? (e : Element) : Option Attribute := do
  match ← e.sequence? with
  | [oid, values] => return ⟨← oid.oid?, ← values.setOf?⟩
  | _ => none

def load (der : Bytes) : Except Error Attribute :=
  match (Element.ofBytes? der).bind ofElement? with
  | some a => .ok a
  | none => .error (.asn1 .malformed)

end Attribute
end PdfStream
