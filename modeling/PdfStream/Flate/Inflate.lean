import PdfStream.Flate.Adler
import PdfStream.Flate.Huffman
import PdfStream.Step

/-!
Reading a zlib stream bit by bit: header, deflate blocks, checksum. What follows the checksum is
ignored; whatever breaks the format leaves the reader broken.
-/
namespace PdfStream.Flate

/-- The sizes that open a dynamic block. -/
structure TableSizes where
  literals : Nat
  distances : Nat
  lengthCodes : Nat
  deriving DecidableEq, Repr

/-- What a collected number means. -/
inductive Field where
  | zlibHeader
  | blockHeader
  | storedLength (skipped : Nat)
  | storedByte (remaining : Nat)
  | tableSizes
  | lengthCode (sizes : TableSizes) (lengths : List Nat)
  | repeated (base value : Nat)
  | lengthExtra (base : Nat)
  | distanceExtra (length base : Nat)
  | checksum (skipped : Nat)
  deriving DecidableEq, Repr

/-- What a symbol means. -/
inductive Purpose where
  | codeLength
  | literal
  | distance (length : Nat)
  deriving DecidableEq, Repr

inductive Stage where
  /-- Collects a number of `width` bits, low bit first. -/
  | number (width : Nat) (field : Field)
  /-- Walks down a tree to a symbol. -/
  | symbol (tree : Huffman) (purpose : Purpose)
  | finished
  | broken
  deriving DecidableEq, Repr

structure Inflate where
  stage : Stage := .number 16 .zlibHeader
  /-- The bits collected, and how many. -/
  value : Nat := 0
  got : Nat := 0
  /-- Bits read of the current byte. -/
  offset : Nat := 0
  lastBlock : Bool := false
  /-- Everything written so far. -/
  history : Array UInt8 := #[]
  checksum : Adler := {}
  /-- The trees of the current block. -/
  literals : Huffman := .missing
  distances : Huffman := .missing
  /-- While a dynamic block's lengths are read: its sizes, its length code, the lengths so far. -/
  sizes : TableSizes := ⟨0, 0, 0⟩
  lengthTree : Huffman := .missing
  lengths : Array Nat := #[]

namespace Inflate

def corrupt : Error := .decode .deflateCorrupt

def fail (s : Inflate) : Step Inflate := .stop { s with stage := .broken } corrupt

def goto (s : Inflate) (stage : Stage) : Inflate := { s with stage, value := 0, got := 0 }

/-- Bits to the next byte boundary. -/
def toBoundary (s : Inflate) : Nat := (8 - s.offset) % 8

def nextLiteral (s : Inflate) : Inflate := s.goto (.symbol s.literals .literal)

def endBlock (s : Inflate) : Inflate :=
  if s.lastBlock then s.goto (.number (s.toBoundary + 32) (.checksum s.toBoundary))
  else s.goto (.number 3 .blockHeader)

def emit (s : Inflate) (bytes : Bytes) : Step Inflate :=
  .write { s with history := s.history ++ bytes, checksum := s.checksum.add bytes } bytes

/-- `length` bytes from `distance` back; a copy longer than the distance repeats itself. -/
def lookBack (history : Array UInt8) (length distance : Nat) : Bytes :=
  (List.range length).map fun k => history.getD (history.size - distance + k % distance) 0

def copy (s : Inflate) (length distance : Nat) : Step Inflate :=
  if distance = 0 ∨ s.history.size < distance then s.fail
  else (s.emit (lookBack s.history length distance)).andThen fun s => .quiet s.nextLiteral

def withTables (s : Inflate) (literals distances : Huffman) : Inflate :=
  { s with literals, distances }.nextLiteral

/-- Reads on in the lengths of a dynamic block, or builds its trees when all are there. -/
def afterLengths (s : Inflate) : Step Inflate :=
  let all := s.sizes.literals + s.sizes.distances
  if s.lengths.size < all then .quiet (s.goto (.symbol s.lengthTree .codeLength))
  else if s.lengths.size ≠ all then s.fail
  else
    match Huffman.ofLengths? (s.lengths.toList.drop s.sizes.literals),
      Huffman.ofLengths? (s.lengths.toList.take s.sizes.literals) with
    | some distances, some literals => .quiet (s.withTables literals distances)
    | _, _ => s.fail

def readHeader (s : Inflate) (value : Nat) : Step Inflate :=
  let method := value % 256
  let flags := value / 256
  if (method * 256 + flags) % 31 = 0 ∧ flags / 32 % 2 = 0 ∧ method % 16 = 8 ∧ method / 16 ≤ 7 then
    .quiet (s.goto (.number 3 .blockHeader))
  else s.fail

def readBlockHeader (s : Inflate) (value : Nat) : Step Inflate :=
  let s := { s with lastBlock := value % 2 == 1 }
  match value / 2 with
  | 0 => .quiet (s.goto (.number (s.toBoundary + 32) (.storedLength s.toBoundary)))
  | 1 => .quiet (s.withTables fixedLiterals fixedDistances)
  | 2 => .quiet (s.goto (.number 14 .tableSizes))
  | _ => s.fail

/-- The length code's lengths come in an order of their own; those not listed are zero. -/
def lengthCodeLengths (listed : List Nat) : List Nat :=
  (List.range 19).map fun symbol =>
    ((lengthCodeOrder.zip listed).lookup symbol).getD 0

def readField (s : Inflate) (field : Field) (value : Nat) : Step Inflate :=
  match field with
  | .zlibHeader => s.readHeader value
  | .blockHeader => s.readBlockHeader value
  | .storedLength skipped =>
    let both := value >>> skipped
    let length := both % 65536
    if length + both / 65536 ≠ 65535 then s.fail
    else if length = 0 then .quiet s.endBlock
    else .quiet (s.goto (.number 8 (.storedByte length)))
  | .storedByte remaining =>
    (s.emit [UInt8.ofNat value]).andThen fun s =>
      if remaining ≤ 1 then .quiet s.endBlock
      else .quiet (s.goto (.number 8 (.storedByte (remaining - 1))))
  | .tableSizes =>
    let sizes : TableSizes :=
      ⟨value % 32 + 257, value / 32 % 32 + 1, value / 1024 + 4⟩
    if 286 < sizes.literals ∨ 30 < sizes.distances then s.fail
    else .quiet (s.goto (.number 3 (.lengthCode sizes [])))
  | .lengthCode sizes listed =>
    let listed := listed ++ [value]
    if listed.length < sizes.lengthCodes then
      .quiet (s.goto (.number 3 (.lengthCode sizes listed)))
    else
      match Huffman.ofComplete? (lengthCodeLengths listed) with
      | some lengthTree => { s with sizes, lengthTree, lengths := #[] }.afterLengths
      | none => s.fail
  | .repeated base repeatedLength =>
    { s with lengths := s.lengths ++ Array.replicate (base + value) repeatedLength }.afterLengths
  | .lengthExtra base => .quiet (s.goto (.symbol s.distances (.distance (base + value))))
  | .distanceExtra length base => s.copy length (base + value)
  | .checksum skipped =>
    let bytes := Bytes.toNat (Bytes.ofNat 4 (value >>> skipped)).reverse
    if bytes = s.checksum.value then .quiet (s.goto .finished) else s.fail

def readLiteral (s : Inflate) (symbol : Nat) : Step Inflate :=
  if symbol < 256 then (s.emit [UInt8.ofNat symbol]).andThen fun s => .quiet s.nextLiteral
  else if symbol = 256 then .quiet s.endBlock
  else
    match lengthRanges[symbol - 257]? with
    | none => s.fail
    | some (base, 0) => .quiet (s.goto (.symbol s.distances (.distance base)))
    | some (base, extra) => .quiet (s.goto (.number extra (.lengthExtra base)))

def readDistance (s : Inflate) (length symbol : Nat) : Step Inflate :=
  match distanceRanges[symbol]? with
  | none => s.fail
  | some (base, 0) => s.copy length base
  | some (base, extra) => .quiet (s.goto (.number extra (.distanceExtra length base)))

def readCodeLength (s : Inflate) (symbol : Nat) : Step Inflate :=
  if symbol < 16 then { s with lengths := s.lengths.push symbol }.afterLengths
  else if symbol = 16 then
    match s.lengths.back? with
    | some previous => .quiet (s.goto (.number 2 (.repeated 3 previous)))
    | none => s.fail
  else if symbol = 17 then .quiet (s.goto (.number 3 (.repeated 3 0)))
  else .quiet (s.goto (.number 7 (.repeated 11 0)))

def readSymbol (s : Inflate) (purpose : Purpose) (symbol : Nat) : Step Inflate :=
  match purpose with
  | .codeLength => s.readCodeLength symbol
  | .literal => s.readLiteral symbol
  | .distance length => s.readDistance length symbol

def readBit (s : Inflate) (bit : Bool) : Step Inflate :=
  let s := { s with offset := (s.offset + 1) % 8 }
  match s.stage with
  | .number width field =>
    let value := s.value + bit.toNat <<< s.got
    if s.got + 1 < width then .quiet { s with value, got := s.got + 1 }
    else s.readField field value
  | .symbol tree purpose =>
    match tree with
    | .node zero one =>
      match if bit then one else zero with
      | .missing => s.fail
      | .leaf symbol => s.readSymbol purpose symbol
      | .node zero one => .quiet { s with stage := .symbol (.node zero one) purpose }
    | _ => s.fail
  | .finished => .quiet s
  | .broken => .stop s corrupt

def isFinished (s : Inflate) : Bool :=
  match s.stage with
  | .finished => true
  | _ => false

def isBroken (s : Inflate) : Bool :=
  match s.stage with
  | .broken => true
  | _ => false

/-- A byte of a stored block comes next. -/
def awaitsStored (s : Inflate) : Bool :=
  match s.stage with
  | .number _ (.storedByte _) => s.got = 0
  | _ => false

end Inflate
end PdfStream.Flate
