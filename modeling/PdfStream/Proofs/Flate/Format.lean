import Mathlib.Data.List.Infix
import PdfStream.Flate.Inflate
import PdfStream.Proofs.Bits

/-!
Zlib streams, told without a reader or a writer: which bits stand for which data. A stream may be cut
into blocks anywhere, choose its codes, repeat any earlier data and hold anything in the bits that
fill up a byte.
-/
namespace PdfStream.Flate

/-- The codes of a block, each told by the lengths of its words. -/
structure Codes where
  literals : List Nat
  distances : List Nat

/-- The codes of a block that brings none. -/
def Codes.fixed : Codes := ⟨fixedLiteralLengths, fixedDistanceLengths⟩

/-- The word of a symbol in the code with these lengths. -/
def IsWord (lengths : List Nat) (symbol : Nat) (word : List Bool) : Prop :=
  (symbol, word) ∈ Huffman.words lengths

/-- A number as the word for one of the ranges, the first of which has the symbol `first`, and its
place in the range. -/
inductive IsNumber (ranges : List (Nat × Nat)) (lengths : List Nat) (first n : Nat) :
    List Bool → Prop where
  | intro {i base extra : Nat} {word : List Bool} (hrange : ranges[i]? = some (base, extra))
      (hlow : base ≤ n) (hhigh : n < base + 2 ^ extra) (hword : IsWord lengths (first + i) word) :
      IsNumber ranges lengths first n (word ++ Bits.lowFirst extra (n - base))

/-- Each byte of `chunk` is the one that stands `distance` before it, in `chunk` itself or in the
data in front of it. -/
structure IsCopy (history : Bytes) (distance : Nat) (chunk : Bytes) : Prop where
  pos : 1 ≤ distance
  near : distance ≤ history.length
  same : ∀ k < chunk.length,
    (history ++ chunk)[history.length + k]? = (history ++ chunk)[history.length + k - distance]?

/-- The bits of the data behind `history`, up to the end of the block. -/
inductive IsCoded (codes : Codes) : (history : Bytes) → List Bool → Bytes → Prop where
  | ending {history : Bytes} {word : List Bool} (hword : IsWord codes.literals 256 word) :
      IsCoded codes history word []
  | literal {history : Bytes} {b : UInt8} {word bits : List Bool} {data : Bytes}
      (hword : IsWord codes.literals b.toNat word)
      (hrest : IsCoded codes (history ++ [b]) bits data) :
      IsCoded codes history (word ++ bits) (b :: data)
  | reference {history : Bytes} {distance : Nat} {chunk : Bytes}
      {lengthBits distanceBits bits : List Bool} {data : Bytes}
      (hlength : IsNumber lengthRanges codes.literals 257 chunk.length lengthBits)
      (hdistance : IsNumber distanceRanges codes.distances 0 distance distanceBits)
      (hcopy : IsCopy history distance chunk) (hrest : IsCoded codes (history ++ chunk) bits data) :
      IsCoded codes history (lengthBits ++ distanceBits ++ bits) (chunk ++ data)

/-- A symbol for a run of lengths behind `before`: how many bits tell more about its size, how many
lengths it has at least, and which one they repeat. -/
inductive IsRun (before : List Nat) : (symbol width base length : Nat) → Prop where
  | previous {length : Nat} (hlast : before.getLast? = some length) : IsRun before 16 2 3 length
  | zeros : IsRun before 17 3 3 0
  | manyZeros : IsRun before 18 7 11 0

/-- The bits of the lengths behind `before`, in the code whose own lengths are `code`. -/
inductive AreLengths (code : List Nat) : (before : List Nat) → List Bool → List Nat → Prop where
  | done {before : List Nat} : AreLengths code before [] []
  | one {before : List Nat} {length : Nat} {word bits : List Bool} {lengths : List Nat}
      (hshort : length < 16) (hword : IsWord code length word)
      (hrest : AreLengths code (before ++ [length]) bits lengths) :
      AreLengths code before (word ++ bits) (length :: lengths)
  | run {before : List Nat} {symbol width base length more : Nat} {word bits : List Bool}
      {lengths : List Nat} (hrun : IsRun before symbol width base length)
      (hword : IsWord code symbol word) (hmore : more < 2 ^ width)
      (hrest : AreLengths code (before ++ List.replicate (base + more) length) bits lengths) :
      AreLengths code before (word ++ Bits.lowFirst width more ++ bits)
        (List.replicate (base + more) length ++ lengths)

/-- The words leave no path open, or there is at most one, of a single bit. -/
def IsUsable (lengths : List Nat) : Prop := Huffman.IsComplete lengths ∨ Huffman.IsSparse lengths

/-- The bits with which a block brings its codes: three sizes, the code for the lengths, and these. -/
inductive AreTables (codes : Codes) : List Bool → Prop where
  | intro {listed : List Nat} {bits : List Bool}
      (hliterals : 257 ≤ codes.literals.length ∧ codes.literals.length ≤ 286)
      (hdistances : 1 ≤ codes.distances.length ∧ codes.distances.length ≤ 30)
      (hlisted : 4 ≤ listed.length ∧ listed.length ≤ 19) (hshort : ∀ length ∈ listed, length < 8)
      (hcomplete : Huffman.IsComplete (Inflate.lengthCodeLengths listed))
      (hlengths : AreLengths (Inflate.lengthCodeLengths listed) [] bits
        (codes.literals ++ codes.distances))
      (husable : IsUsable codes.literals) (husable' : IsUsable codes.distances) :
      AreTables codes (Bits.lowFirst 5 (codes.literals.length - 257) ++
        Bits.lowFirst 5 (codes.distances.length - 1) ++ Bits.lowFirst 4 (listed.length - 4) ++
        listed.flatMap (Bits.lowFirst 3) ++ bits)

/-- A block whose first bit is so many bits behind the start of a byte. -/
inductive IsBlock (offset : Nat) (history : Bytes) (last : Bool) : List Bool → Bytes → Prop where
  | stored {pad : List Bool} {data : Bytes} (hpad : pad.length < 8)
      (hwhole : (offset + 3 + pad.length) % 8 = 0) (hsize : data.length ≤ 65535) :
      IsBlock offset history last ([last, false, false] ++ pad ++ Bits.lowFirst 16 data.length ++
        Bits.lowFirst 16 (65535 - data.length) ++ Bits.ofBytes .lowFirst data) data
  | fixed {bits : List Bool} {data : Bytes} (hcoded : IsCoded .fixed history bits data) :
      IsBlock offset history last ([last, true, false] ++ bits) data
  | dynamic {codes : Codes} {tables bits : List Bool} {data : Bytes}
      (htables : AreTables codes tables) (hcoded : IsCoded codes history bits data) :
      IsBlock offset history last ([last, false, true] ++ tables ++ bits) data

/-- Blocks one behind the other, of which the last one and no other says that it is. -/
inductive AreBlocks : (offset : Nat) → (history : Bytes) → List Bool → Bytes → Prop where
  | last {offset : Nat} {history : Bytes} {bits : List Bool} {data : Bytes}
      (hblock : IsBlock offset history true bits data) : AreBlocks offset history bits data
  | more {offset : Nat} {history : Bytes} {bits bits' : List Bool} {data data' : Bytes}
      (hblock : IsBlock offset history false bits data)
      (hrest : AreBlocks (offset + bits.length) (history ++ data) bits' data') :
      AreBlocks offset history (bits ++ bits') (data ++ data')

/-- Deflate with a window of at most 32 KiB, no preset dictionary, and a check sum that agrees. -/
structure IsHeader (method flags : UInt8) : Prop where
  check : (method.toNat * 256 + flags.toNat) % 31 = 0
  plain : flags.toNat / 32 % 2 = 0
  deflate : method.toNat % 16 = 8
  window : method.toNat / 16 ≤ 7

/-- The sum of the data and one; above it, the sum of these sums over all beginnings of the data. -/
def adler32 (data : Bytes) : Nat :=
  let sum (front : Bytes) : Nat := (1 + (front.map UInt8.toNat).sum) % 65521
  (data.inits.tail.map sum).sum % 65521 * 65536 + sum data

/-- A stream that stands for the data. -/
inductive IsZlib (data : Bytes) : Bytes → Prop where
  | intro {method flags : UInt8} {bits pad : List Bool} {packed : Bytes}
      (hheader : IsHeader method flags) (hblocks : AreBlocks 0 [] bits data)
      (hpacked : Bits.ofBytes .lowFirst packed = bits ++ pad) (hpad : pad.length < 8) :
      IsZlib data ([method, flags] ++ packed ++ Bytes.ofNat 4 (adler32 data))

theorem Adler.add_default (data : Bytes) : ({} : Adler).add data =
    ⟨(1 + (data.map UInt8.toNat).sum) % 65521,
      (data.inits.tail.map fun front : Bytes =>
        (1 + (front.map UInt8.toNat).sum) % 65521).sum % 65521⟩ := by
  induction data using List.reverseRecOn with
  | nil => rfl
  | append_singleton data b ih =>
    have hinits : (data ++ [b]).inits.tail = data.inits.tail ++ [data ++ [b]] := by
      rw [List.inits_append, List.tail_append_of_ne_nil (by cases data <;> simp)]
      rfl
    have hadd : ({} : Adler).add (data ++ [b]) = (({} : Adler).add data).addByte b :=
      Adler.add_append {} data [b]
    rw [hadd, ih, hinits]
    simp [addByte]
    omega

theorem Adler.value_add_default (data : Bytes) : (({} : Adler).add data).value = adler32 data := by
  rw [Adler.add_default]
  rfl

end PdfStream.Flate
