import PdfStream.Asn1.Der
import PdfStream.Asn1.Oid

/-!
Primitive values as elements: identifiers, octets, numbers, truth values, bits. A reader gives
`none` for an element that its writer does not make.
-/
namespace PdfStream.Der

/-- The shortest two's complement form of a number that is not negative. -/
def unsignedOctets (n : Nat) : Bytes := Bytes.ofNat ((n.log2 + 1) / 8 + 1) n

/-- The shortest two's complement form of some integer: the first nine bits differ. -/
def IsInteger : Bytes → Prop
  | [] => False
  | [_] => True
  | first :: second :: _ =>
    ¬(first = 0x00 ∧ second < 0x80) ∧ ¬(first = 0xFF ∧ 0x80 ≤ second)

instance (content : Bytes) : Decidable (IsInteger content) := by
  unfold IsInteger; split <;> infer_instance

/-- Bits in whole bytes, of which the last may leave some unused. -/
structure BitString where
  unused : UInt8
  bytes : Bytes
  deriving DecidableEq, Repr

namespace BitString

/-- Fewer than eight bits are unused, and none where there is no byte. -/
def IsValid (bits : BitString) : Prop :=
  bits.unused < 8 ∧ (bits.unused = 0 ∨ bits.bytes ≠ [])

instance (bits : BitString) : Decidable bits.IsValid := by unfold IsValid; infer_instance

def content (bits : BitString) : Bytes := bits.unused :: bits.bytes

def ofContent? : Bytes → Option BitString
  | [] => none
  | unused :: bytes => if IsValid ⟨unused, bytes⟩ then some ⟨unused, bytes⟩ else none

end BitString

namespace Element

def ofOid (oid : Oid) : Element := ⟨Tag.oid, oid.body⟩

def oid? (e : Element) : Option Oid := (e.content? Tag.oid).bind Oid.ofBody?

def ofOctets (octets : Bytes) : Element := ⟨Tag.octetString, octets⟩

def octets? (e : Element) : Option Bytes := e.content? Tag.octetString

def ofNat (n : Nat) : Element := ⟨Tag.integer, unsignedOctets n⟩

def nat? (e : Element) : Option Nat := do
  let content ← e.content? Tag.integer
  let n := Bytes.toNat content
  if unsignedOctets n = content then some n else none

theorem eq_ofNat_of_nat? {e : Element} {n : Nat} (h : e.nat? = some n) : e = ofNat n := by
  obtain ⟨tag, content⟩ := e
  simp only [nat?, content?] at h
  split at h
  · rename_i htag
    simp only [Option.bind_eq_bind, Option.bind_some] at h
    split at h
    · rename_i hcontent
      simp only [Option.some.injEq] at h
      simp only [ofNat, ← h, hcontent, htag]
    · simp at h
  · simp at h

/-- The octets of an integer of either sign. -/
def integer? (e : Element) : Option Bytes :=
  (e.content? Tag.integer).filter fun content => IsInteger content

def ofBool (b : Bool) : Element := ⟨Tag.boolean, [if b then 0xFF else 0x00]⟩

def bool? (e : Element) : Option Bool :=
  if e = ofBool true then some true
  else if e = ofBool false then some false
  else none

def ofBits (tag : UInt8) (bits : BitString) : Element := ⟨tag, bits.content⟩

def bits? (e : Element) (tag : UInt8) : Option BitString :=
  (e.content? tag).bind BitString.ofContent?

end Element
end PdfStream.Der
