import PdfStream.Error

/-!
The RC4 keystream: a permutation of the byte values, stirred by the key and then by every byte it
yields.
-/
namespace PdfStream

structure Rc4 where
  perm : Vector UInt8 256
  i : UInt8 := 0
  j : UInt8 := 0
  deriving DecidableEq

namespace Rc4

def swap (perm : Vector UInt8 256) (i j : UInt8) : Vector UInt8 256 :=
  perm.swap i.toNat j.toNat i.toNat_lt j.toNat_lt

def identity : Vector UInt8 256 := Vector.ofFn fun i => UInt8.ofNat i.val

/-- One round of the key schedule. -/
def stir (key : Array UInt8) (s : Rc4) : Rc4 :=
  let j := s.j + s.perm.get s.i.toFin + key.getD (s.i.toNat % key.size) 0
  ⟨swap s.perm s.i j, s.i + 1, j⟩

/-- Keys have 1 to 256 bytes. -/
def ofKey (key : Bytes) : Except Error Rc4 :=
  if key.length = 0 ∨ 256 < key.length then
    .error (.configuration (.rc4KeyLength key.length))
  else .ok ⟨(Nat.repeat (stir key.toArray) 256 ⟨identity, 0, 0⟩).perm, 0, 0⟩

def advance (s : Rc4) : Rc4 :=
  let i := s.i + 1
  let j := s.j + s.perm.get i.toFin
  ⟨swap s.perm i j, i, j⟩

/-- The keystream byte that an advanced state shows. -/
def output (s : Rc4) : UInt8 :=
  s.perm.get (s.perm.get s.i.toFin + s.perm.get s.j.toFin).toFin

/-- Adds the keystream to the data, and leaves the state after it. -/
def process (s : Rc4) (data : Bytes) : Rc4 × Bytes :=
  let (s, out) := data.foldl (fun (s, out) b =>
    let s := s.advance
    (s, out.push (b ^^^ s.output))) (s, (#[] : Array UInt8))
  (s, out.toList)

def describe (_ : Rc4) : String := "Arcfour(REDACTED)"

end Rc4
end PdfStream
