import PdfStream.Flate.Inflate
import PdfStream.Predictor

/-!
Reading a zlib stream into pieces. Decoding goes on until a window of 32 KiB is full, the data are
used up or the stream ends; what was decoded then leaves in pieces of at most 8192 bytes. Where the
stream is broken, everything decoded since the window was last full is lost. What the pieces make
together depends neither on the windows nor on the cuts of the data.
-/
namespace PdfStream.Flate

structure Reader where
  inflate : Inflate := {}
  /-- The rest of a byte that was read in part. -/
  bits : List Bool := []
  /-- Bytes for which the window had no room. -/
  spill : Bytes := []
  /-- Bytes in the window. -/
  level : Nat := 0
  /-- Pieces that were decoded and not handed over. -/
  waiting : List Bytes := []

/-- What is decoded at a time, and where that leaves the stream. -/
structure Fill where
  inflate : Inflate
  bytes : Array UInt8
  bits : List Bool := []
  data : Bytes := []

namespace Fill

/-- Bits still to be read. -/
def left (f : Fill) : Nat := f.bits.length + 8 * f.data.length

/-- The stream is over, or there is no room for what comes next. -/
def isDone (room : Nat) (f : Fill) : Bool :=
  f.inflate.isFinished || f.inflate.isBroken || room < f.bytes.size ||
    (f.bytes.size = room && f.inflate.awaitsStored)

/-- Reads the bits in front. -/
def readBits (room : Nat) (f : Fill) : List Bool → Fill
  | [] => { f with bits := [] }
  | bit :: bits =>
    if f.isDone room then { f with bits := bit :: bits }
    else
      let r := f.inflate.readBit bit
      readBits room { f with inflate := r.state, bytes := f.bytes ++ r.bytes } bits

/-- Reads byte after byte, as long as each is read to its end. -/
def readBytes (room : Nat) (f : Fill) : Bytes → Fill
  | [] => { f with data := [] }
  | b :: data =>
    if f.isDone room || f.bits ≠ [] then { f with data := b :: data }
    else readBytes room (f.readBits room (Bits.Order.lowFirst.ofByte b)) data

end Fill

namespace Reader

def windowLength : Nat := 32768

def pieceLength : Nat := 8192

/-- Bits still to be read. -/
def left (r : Reader) (data : Bytes) : Nat := r.bits.length + 8 * data.length

def room (r : Reader) : Nat := windowLength - r.level

/-- Decodes until the window is full or nothing more can be read. -/
def fill (r : Reader) (data : Bytes) : Fill :=
  let start : Fill := { inflate := r.inflate, bytes := r.spill.toArray }
  (start.readBits r.room r.bits).readBytes r.room data

/-- The reader after a fill that began at `level`. -/
def ofFill (level : Nat) (f : Fill) (waiting : List Bytes) : Reader where
  inflate := f.inflate
  bits := f.bits
  spill := f.bytes.toList.drop (windowLength - level)
  level := (level + min f.bytes.size (windowLength - level)) % windowLength
  waiting := waiting

/-- Whether a fill that makes up `size` bytes is the last: the stream is finished; or without data,
the last piece is not full; or nothing was read of the `left` bits. -/
def Ends (left : Nat) (f : Fill) (size : Nat) : Prop :=
  f.inflate.isFinished ∨ (f.data = [] ∧ (size = 0 ∨ size % pieceLength ≠ 0)) ∨ left ≤ f.left

instance (left : Nat) (f : Fill) (size : Nat) : Decidable (Ends left f size) := by
  unfold Ends; infer_instance

theorem left_lt_of_not_ends {left size : Nat} {f : Fill} (h : ¬Ends left f size) :
    f.left < left :=
  Nat.lt_of_not_le fun hle => h (.inr (.inr hle))

/-- Reads on with an open piece, and hands on what is closed. A window that does not fill the piece
leaves it open. -/
def readOn (r : Reader) (piece : Array UInt8) (data : Bytes) (out : Step (Option Predictor)) :
    Step (Reader × Option Predictor) :=
  let level := r.level
  let left := r.left data
  let f := r.fill data
  if f.inflate.isBroken then
    (out.andThen (.stop · Inflate.corrupt)).map fun p => (ofFill level f [], p)
  else
    let whole := piece ++ f.bytes.extract 0 (windowLength - level)
    if _ : ¬Ends left f whole.size ∧ whole.size < pieceLength then
      readOn (ofFill level f []) whole f.data out
    else
      let (out, waiting) := Predictor.passAll out (Bytes.chunks pieceLength whole.toList)
      if _ : ¬Ends left f whole.size ∧ out.fault.isNone then
        readOn (ofFill level f []) #[] f.data out
      else out.map fun p => (ofFill level f waiting, p)
termination_by r.left data
decreasing_by
  all_goals exact left_lt_of_not_ends (And.left ‹_›)

/-- Reads a block, after the pieces that were waiting. -/
def feed (r : Reader) (data : Bytes) (p : Option Predictor) : Step (Reader × Option Predictor) :=
  if r.inflate.isBroken then .stop (r, p) Inflate.corrupt
  else
    let (out, waiting) := Predictor.passAll (.quiet p) r.waiting
    let isShort := r.waiting.getLast?.any (·.length < pieceLength)
    if out.fault.isSome ∨ (data = [] ∧ isShort) then out.map fun p => ({ r with waiting }, p)
    else readOn { r with waiting } #[] data out

end Reader
end PdfStream.Flate
