import PdfStream.Bits

/-!
Canonical Huffman codes: code words from their lengths, and the tree that reads them.
-/
namespace PdfStream.Flate

/-- A tree whose leaves are symbols. Some paths may lead nowhere. -/
inductive Huffman where
  | missing
  | leaf (symbol : Nat)
  | node (zero one : Huffman)
  deriving DecidableEq, Repr

namespace Huffman

/-- No code word is longer. -/
def maxLength : Nat := 15

/-- Symbols with their lengths, shortest first; unused symbols are left out. -/
def sorted (lengths : List Nat) : List (Nat × Nat) :=
  let used := lengths.zipIdx.filter fun entry => entry.1 ≠ 0
  (List.range (maxLength + 1)).flatMap fun length => used.filter fun entry => entry.1 = length

/-- Code words follow each other on a line of 2^15 points, of which a word of length l takes
2^(15 - l). -/
def assign (start : Nat) : List (Nat × Nat) → List (Nat × List Bool)
  | [] => []
  | (length, symbol) :: rest =>
    (symbol, Bits.highFirst length (start >>> (maxLength - length))) ::
      assign (start + 1 <<< (maxLength - length)) rest

/-- The code word of each used symbol. -/
def words (lengths : List Nat) : List (Nat × List Bool) := assign 0 (sorted lengths)

def insert (symbol : Nat) : List Bool → Huffman → Huffman
  | [], _ => leaf symbol
  | bit :: bits, tree =>
    let (zero, one) := match tree with
      | node zero one => (zero, one)
      | _ => (missing, missing)
    if bit then node zero (insert symbol bits one) else node (insert symbol bits zero) one

def ofWords (words : List (Nat × List Bool)) : Huffman :=
  words.foldl (fun tree entry => insert entry.1 entry.2 tree) missing

/-- The points that all code words take together. -/
def taken (lengths : List Nat) : Nat :=
  (lengths.filter (· ≠ 0)).foldl (fun points length => points + 1 <<< (maxLength - length)) 0

/-- The words fill the line. -/
def IsComplete (lengths : List Nat) : Prop := taken lengths = 1 <<< maxLength

/-- There is no word, or one of a single bit. -/
def IsSparse (lengths : List Nat) : Prop :=
  lengths.filter (· ≠ 0) = [] ∨ lengths.filter (· ≠ 0) = [1]

instance (lengths : List Nat) : Decidable (IsComplete lengths) := by
  unfold IsComplete; infer_instance

instance (lengths : List Nat) : Decidable (IsSparse lengths) := by
  unfold IsSparse; infer_instance

/-- The tree of a complete code. -/
def ofComplete? (lengths : List Nat) : Option Huffman :=
  if IsComplete lengths then some (ofWords (words lengths)) else none

/-- The tree of a code that is complete or sparse. -/
def ofLengths? (lengths : List Nat) : Option Huffman :=
  if IsComplete lengths ∨ IsSparse lengths then some (ofWords (words lengths)) else none

end Huffman

/-- Literals and lengths of a block with fixed codes. -/
def fixedLiteralLengths : List Nat :=
  List.replicate 144 8 ++ List.replicate 112 9 ++ List.replicate 24 7 ++ List.replicate 8 8

def fixedDistanceLengths : List Nat := List.replicate 32 5

def fixedLiterals : Huffman := .ofWords (Huffman.words fixedLiteralLengths)

def fixedDistances : Huffman := .ofWords (Huffman.words fixedDistanceLengths)

/-- A symbol from 257 on: the shortest length it stands for, and its extra bits. -/
def lengthRanges : List (Nat × Nat) := [
  (3, 0), (4, 0), (5, 0), (6, 0), (7, 0), (8, 0), (9, 0), (10, 0), (11, 1), (13, 1), (15, 1),
  (17, 1), (19, 2), (23, 2), (27, 2), (31, 2), (35, 3), (43, 3), (51, 3), (59, 3), (67, 4),
  (83, 4), (99, 4), (115, 4), (131, 5), (163, 5), (195, 5), (227, 5), (258, 0)]

/-- A distance symbol: the shortest distance it stands for, and its extra bits. -/
def distanceRanges : List (Nat × Nat) := [
  (1, 0), (2, 0), (3, 0), (4, 0), (5, 1), (7, 1), (9, 2), (13, 2), (17, 3), (25, 3), (33, 4),
  (49, 4), (65, 5), (97, 5), (129, 6), (193, 6), (257, 7), (385, 7), (513, 8), (769, 8),
  (1025, 9), (1537, 9), (2049, 10), (3073, 10), (4097, 11), (6145, 11), (8193, 12), (12289, 12),
  (16385, 13), (24577, 13)]

/-- The order in which a dynamic block lists the lengths of its length code. -/
def lengthCodeOrder : List Nat :=
  [16, 17, 18, 0, 8, 7, 9, 6, 10, 5, 11, 4, 12, 3, 13, 2, 14, 1, 15]

end PdfStream.Flate
