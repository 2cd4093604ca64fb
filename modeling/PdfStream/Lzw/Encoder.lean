import Std.Data.HashMap
import PdfStream.Bits
import PdfStream.Step

/-!
The LZW encoder: codes of 9 to 12 bits, high bit first, for the longest known word at each place.
The words are a tree; a node remembers sixteen continuations, forgets the seventeenth, and remembers
all later ones. Bits are held back until 64 of them could not take two more codes; whole bytes then
go into a piece of 4096 bytes.
-/
namespace PdfStream.Lzw

def clearCode : Nat := 256

def endCode : Nat := 257

/-- The first code of a word of two bytes. -/
def firstCode : Nat := 258

def maxWidth : Nat := 12

structure Encoder where
  /-- One if codes widen one entry early, else zero. -/
  early : Nat
  width : Nat := 9
  /-- The code that the next word gets. -/
  count : Nat := firstCode
  /-- The code of the word read so far. -/
  current : Option Nat := none
  /-- The code of a word continued by a byte. -/
  children : Std.HashMap (Nat × UInt8) Nat := {}
  /-- How many continuations a word was given. -/
  fanout : Std.HashMap Nat Nat := {}
  /-- Bits that are held back. -/
  held : List Bool := []
  /-- Bytes that are written when the piece is full or the block ends. -/
  piece : Array UInt8 := #[]

namespace Encoder

def pieceLength : Nat := 4096

/-- Bits that may be held back. -/
def heldLength : Nat := 64

/-- Adds a code in the current width. -/
def emit (e : Encoder) (code : Nat) : Encoder :=
  { e with held := e.held ++ Bits.highFirst e.width code }

def create (earlyChange : Bool) : Encoder :=
  { early := if earlyChange then 1 else 0, held := Bits.highFirst 9 clearCode }

/-- Numbers the word `parent` continued by `b`. -/
def learn (e : Encoder) (parent : Nat) (b : UInt8) : Encoder :=
  let given := e.fanout.getD parent 0
  { e with
    children := if given = 16 then e.children else e.children.insert (parent, b) e.count
    fanout := e.fanout.insert parent (given + 1)
    count := e.count + 1 }

def widen (e : Encoder) (limit : Nat) : Encoder :=
  if limit < e.count + e.early ∧ e.width < maxWidth then { e with width := e.width + 1 } else e

/-- A full table is given up. -/
def clearIfFull (e : Encoder) : Encoder :=
  if 1 <<< maxWidth < e.count then
    { e.emit clearCode with width := 9, count := firstCode, children := {}, fanout := {} }
  else e

/-- Reads on in the word, or writes its code and starts the next one. -/
def extend (e : Encoder) (b : UInt8) : Encoder :=
  match e.current with
  | none => { e with current := some b.toNat }
  | some word =>
    match e.children[(word, b)]? with
    | some code => { e with current := some code }
    | none =>
      let e := { (e.learn word b).emit word with current := some b.toNat }
      (e.widen (1 <<< e.width)).clearIfFull

/-- Whole bytes held back. -/
def bytesHeld (e : Encoder) : Nat := e.held.length / 8

/-- Bytes that the piece has room for. -/
def room (e : Encoder) : Nat := pieceLength - e.piece.size

/-- Two more codes might not fit. -/
def IsDue (e : Encoder) : Prop := heldLength ≤ e.held.length + 2 * e.width

instance (e : Encoder) : Decidable e.IsDue := by unfold IsDue; infer_instance

/-- Moves `count` bytes from the held bits into the piece. -/
def move (e : Encoder) (count : Nat) : Encoder :=
  { e with
    held := e.held.drop (8 * count)
    piece := e.piece ++ (Bits.pack .highFirst (e.held.take (8 * count))).1 }

/-- Moves what there is room for. -/
def settle (e : Encoder) : Encoder := if e.IsDue then e.move (min e.bytesHeld e.room) else e

def writePiece (e : Encoder) : Step Encoder := .write { e with piece := #[] } e.piece.toList

/-- Reads a byte; before that, a piece that has no room for what is due goes out. -/
def addByte (e : Encoder) (b : UInt8) : Step Encoder :=
  if e.IsDue ∧ e.room < e.bytesHeld then
    e.settle.writePiece.map fun e => e.settle.extend b
  else .quiet (e.settle.extend b)

/-- What is left of a piece goes out with its block. -/
def feed (e : Encoder) (data : Bytes) : Step Encoder :=
  if data = [] then .quiet e else (Step.run addByte e data).andThen fun e => e.settle.writePiece

/-- The last word, the end code and the last bits. -/
def finish (e : Encoder) : Step Encoder :=
  let last := match e.current with
    | none => e
    | some word =>
      let e := e.emit word
      e.widen (1 <<< e.width - 1)
  let (bytes, short) := Bits.pack .highFirst (last.emit endCode).held
  .write { last with held := [] } (bytes ++ Bits.padded .highFirst short)

end Encoder
end PdfStream.Lzw
