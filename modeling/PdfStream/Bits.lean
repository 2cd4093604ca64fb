import PdfStream.Bytes

/-!
Numbers as bits in either order, and bits packed eight to a byte.
-/
namespace PdfStream.Bits

/-- The `width` low bits of `n`, low bit first. -/
def lowFirst : (width n : Nat) → List Bool
  | 0, _ => []
  | width + 1, n => (n % 2 == 1) :: lowFirst width (n / 2)

/-- The `width` low bits of `n`, high bit first. -/
def highFirst : (width n : Nat) → List Bool
  | 0, _ => []
  | width + 1, n => n.testBit width :: highFirst width n

@[simp] theorem length_lowFirst (width n : Nat) : (lowFirst width n).length = width := by
  induction width generalizing n with
  | zero => rfl
  | succ width ih => simp [lowFirst, ih]

@[simp] theorem length_highFirst (width n : Nat) : (highFirst width n).length = width := by
  induction width with
  | zero => rfl
  | succ width ih => simp [highFirst, ih]

def ofLowFirst (bits : List Bool) : Nat := bits.foldr (fun b n => 2 * n + b.toNat) 0

def ofHighFirst (bits : List Bool) : Nat := bits.foldl (fun n b => 2 * n + b.toNat) 0

/-- The order of the bits in a byte. -/
inductive Order where
  | highFirst | lowFirst
  deriving DecidableEq, Repr

def Order.ofByte : Order → UInt8 → List Bool
  | .highFirst, b => Bits.highFirst 8 b.toNat
  | .lowFirst, b => Bits.lowFirst 8 b.toNat

def Order.toByte : Order → List Bool → UInt8
  | .highFirst, bits => UInt8.ofNat (ofHighFirst bits)
  | .lowFirst, bits => UInt8.ofNat (ofLowFirst bits)

/-- Whole bytes after `done`, and the bits left over. -/
def packOnto (order : Order) (done : Array UInt8) : List Bool → Array UInt8 × List Bool
  | a :: b :: c :: d :: e :: f :: g :: h :: rest =>
    packOnto order (done.push (order.toByte [a, b, c, d, e, f, g, h])) rest
  | short => (done, short)

/-- Whole bytes, and the fewer than eight bits left over. -/
def pack (order : Order) (bits : List Bool) : Bytes × List Bool :=
  let (bytes, short) := packOnto order #[] bits
  (bytes.toList, short)

/-- The last bits as a byte filled up with zeros; nothing if there are none. -/
def padded (order : Order) (short : List Bool) : Bytes :=
  if short = [] then [] else [order.toByte (short ++ List.replicate (8 - short.length) false)]

end PdfStream.Bits
