import Std.Data.HashMap
import PdfStream.Flate.Huffman

/-!
Data as literals and references to earlier data. A search proposes references; each is checked
before it is taken, so whatever the search does, the tokens stand for the data.
-/
namespace PdfStream.Flate

inductive Token where
  | literal (byte : UInt8)
  /-- `length` bytes, the first of them `distance` back. -/
  | reference (length distance : Nat)
  deriving DecidableEq, Repr

namespace Token

def shortest : Nat := 3

def longest : Nat := 258

def farthest : Nat := 32768

/-- A reference that may stand for the bytes from i on. -/
def Fits (data : Array UInt8) (i length distance : Nat) : Prop :=
  shortest ≤ length ∧ length ≤ longest ∧ 1 ≤ distance ∧ distance ≤ farthest ∧ distance ≤ i ∧
    i + length ≤ data.size ∧
    ∀ k < length, data.getD (i + k) 0 = data.getD (i + k - distance) 0

instance (data : Array UInt8) (i length distance : Nat) :
    Decidable (Fits data i length distance) := by
  unfold Fits; infer_instance

/-- How many bytes from i on agree with those `distance` before them, up to `limit`. -/
def agreement (data : Array UInt8) (i distance : Nat) : (limit : Nat) → Nat
  | 0 => 0
  | limit + 1 =>
    if i < data.size ∧ data.getD i 0 = data.getD (i - distance) 0 then
      agreement data (i + 1) distance limit + 1
    else 0

/-- Places by the three bytes found there, newest first. -/
abbrev Places := Std.HashMap (UInt8 × UInt8 × UInt8) (List Nat)

def key (data : Array UInt8) (i : Nat) : UInt8 × UInt8 × UInt8 :=
  (data.getD i 0, data.getD (i + 1) 0, data.getD (i + 2) 0)

/-- Length and distance of the longest agreement with one of the places. -/
def best (data : Array UInt8) (i : Nat) (candidates : List Nat) : Nat × Nat :=
  candidates.foldl (fun found place =>
    let length := agreement data i (i - place) longest
    if found.1 < length then (length, i - place) else found) (0, 0)

/-- The tokens from i on, added to `done`; each place keeps `depth` candidates. -/
def search (depth : Nat) (data : Array UInt8) (places : Places) (i : Nat) (done : Array Token) :
    (fuel : Nat) → Array Token
  | 0 => done
  | fuel + 1 =>
    if i < data.size then
      let candidates := places.getD (key data i) []
      let places := places.insert (key data i) (i :: candidates.take (depth - 1))
      let found := best data i candidates
      if Fits data i found.1 found.2 then
        search depth data places (i + found.1) (done.push (.reference found.1 found.2)) fuel
      else search depth data places (i + 1) (done.push (.literal (data.getD i 0))) fuel
    else done

def ofData (depth : Nat) (data : Array UInt8) : List Token :=
  (search depth data {} 0 #[] data.size).toList

/-- The code words of the fixed codes, by symbol. -/
def wordTable (lengths : List Nat) : Array (List Bool) :=
  let words := Huffman.words lengths
  ((List.range lengths.length).map fun symbol => (words.lookup symbol).getD []).toArray

def literalWords : Array (List Bool) := wordTable fixedLiteralLengths

def distanceWords : Array (List Bool) := wordTable fixedDistanceLengths

/-- The last range that starts at or below `value`: its index, start and extra bits. -/
def rangeOf (ranges : List (Nat × Nat)) (value : Nat) : Nat × Nat × Nat :=
  ranges.zipIdx.foldl (fun found entry =>
    if entry.1.1 ≤ value then (entry.2, entry.1.1, entry.1.2) else found) (0, 0, 0)

/-- A token in the fixed codes. -/
def bits : Token → List Bool
  | .literal b => literalWords.getD b.toNat []
  | .reference length distance =>
    let (lengthIndex, lengthStart, lengthExtra) := rangeOf lengthRanges length
    let (distanceIndex, distanceStart, distanceExtra) := rangeOf distanceRanges distance
    literalWords.getD (257 + lengthIndex) [] ++
      Bits.lowFirst lengthExtra (length - lengthStart) ++
      distanceWords.getD distanceIndex [] ++
      Bits.lowFirst distanceExtra (distance - distanceStart)

end Token
end PdfStream.Flate
