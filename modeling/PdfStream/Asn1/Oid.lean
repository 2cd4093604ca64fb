import PdfStream.Bytes
import PdfStream.Text.Decimal

/-!
Object identifiers. An identifier is kept as its content octets: the first two arcs share one octet,
each later arc is written in base 128 with a continuation bit.
-/
namespace PdfStream

structure Oid where
  body : Bytes
  deriving DecidableEq, Repr

namespace Oid

/-- Base-128 digits of `n`, high digit first, all but the last with the continuation bit. -/
def arcOctets (n : Nat) : Bytes :=
  go 0 n [] (n.log2 / 7 + 1)
where
  go (mark : UInt8) (n : Nat) (low : Bytes) : Nat → Bytes
    | 0 => low
    | digits + 1 => go 0x80 (n / 128) ((mark ||| UInt8.ofNat (n % 128)) :: low) digits

def ofArcs : List Nat → Oid
  | first :: second :: rest => ⟨UInt8.ofNat (first * 40 + second) :: rest.flatMap arcOctets⟩
  | _ => ⟨[]⟩

/-- The arcs after the first octet. An arc takes at most five octets, and the fifth has only four
bits; it is read modulo 2^32. -/
def laterArcs (value octets : Nat) : Bytes → Option (List Nat)
  | [] => if octets = 0 then some [] else none
  | b :: rest =>
    if 4 ≤ octets ∧ 0x10 ≤ b then none
    else
      let next := value * 128 % 1 <<< 32 + (b &&& 0x7F).toNat
      if b < 0x80 then (laterArcs 0 0 rest).map (next :: ·)
      else laterArcs next (octets + 1) rest

/-- All arcs, if the octets are well formed: 3 to 39 octets, first arc at most 2. -/
def arcs? (oid : Oid) : Option (List Nat) :=
  match oid.body with
  | [] => none
  | root :: rest =>
    if 2 ≤ rest.length ∧ rest.length ≤ 38 ∧ root < 120 then
      (laterArcs 0 0 rest).map fun arcs => root.toNat / 40 :: root.toNat % 40 :: arcs
    else none

def ofBody? (body : Bytes) : Option Oid :=
  (arcs? ⟨body⟩).map fun _ => ⟨body⟩

/-- Dotted decimal. -/
def dotted (oid : Oid) : String :=
  ".".intercalate (((arcs? oid).getD []).map fun arc => toString arc)

/-- Reads dotted decimal. -/
def ofDotted? (text : String) : Option Oid := do
  let arcs ← ((text.toList.splitOn '.').mapM Decimal.nat?)
  ofBody? (ofArcs arcs).body

end Oid
end PdfStream
