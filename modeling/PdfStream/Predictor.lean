import PdfStream.DecodeParms
import PdfStream.Step

/-!
Predictors: rows of samples that were replaced by differences to their neighbours. A PNG row names
its filter in a byte of its own; TIFF rows hold differences to the pixel on the left. Rows are
restored one by one as their bytes arrive.
-/
namespace PdfStream
namespace Predictor

/-- No row has more bytes. -/
def maxRowBytes : Nat := 1 <<< 24

inductive Scheme where
  | tiff | png
  deriving DecidableEq, Repr

structure Layout where
  scheme : Scheme
  bits : Nat
  colors : Nat
  /-- Without the filter byte of a PNG row. -/
  rowBytes : Nat
  deriving DecidableEq, Repr

namespace Layout

/-- Bytes to the left neighbour: whole bytes of a pixel, and at least one. -/
def distance (l : Layout) : Nat := max 1 (l.colors * l.bits / 8)

/-- Bytes that make up one row of input. -/
def rowSize (l : Layout) : Nat :=
  match l.scheme with
  | .png => l.rowBytes + 1
  | .tiff => l.rowBytes

/-- Row sizes are computed in 64 bits. -/
def create (scheme : Scheme) (colors bits columns : Nat) : Except Error Layout :=
  if bits ∉ [1, 2, 4, 8, 16] then .error (.configuration (.unsupportedBits bits))
  else if scheme = .tiff ∧ bits ∉ [8, 16] then
    .error (.configuration (.unsupportedTiffBits bits))
  else if 1 <<< 64 ≤ colors * bits ∨ 1 <<< 64 ≤ colors * bits * columns then
    .error (.configuration .rowOverflow)
  else
    let rowBytes := (colors * bits * columns + 7) / 8
    if maxRowBytes < rowBytes then
      .error (.configuration (.rowTooLong rowBytes maxRowBytes))
    else .ok ⟨scheme, bits, colors, rowBytes⟩

end Layout

/-- The neighbour that the gradient left + above - upper left comes closest to. -/
def paeth (left above upperLeft : UInt8) : UInt8 :=
  let gradient : Int := (left.toNat : Int) + above.toNat - upperLeft.toNat
  let toLeft := (gradient - left.toNat).natAbs
  let toAbove := (gradient - above.toNat).natAbs
  let toUpperLeft := (gradient - upperLeft.toNat).natAbs
  if toLeft ≤ toAbove ∧ toLeft ≤ toUpperLeft then left
  else if toAbove ≤ toUpperLeft then above
  else upperLeft

/-- What a PNG filter predicts from the left, upper and upper left neighbours. -/
def predict? (tag : UInt8) : Option (UInt8 → UInt8 → UInt8 → UInt8) :=
  match tag.toNat with
  | 0 => some fun _ _ _ => 0
  | 1 => some fun left _ _ => left
  | 2 => some fun _ above _ => above
  | 3 => some fun left above _ => UInt8.ofNat ((left.toNat + above.toNat) / 2)
  | 4 => some paeth
  | _ => none

/-- The byte `distance` before index i; zero before the row. -/
def before (distance : Nat) (row : Array UInt8) (i : Nat) : UInt8 :=
  if distance ≤ i then row.getD (i - distance) 0 else 0

/-- Adds to every byte what its restored neighbours predict. -/
def restoreBytes (predict : UInt8 → UInt8 → UInt8 → UInt8) (distance : Nat)
    (above row : Array UInt8) : Array UInt8 :=
  Nat.fold row.size (fun i _ done => done.push (row.getD i 0 +
    predict (before distance done i) (above.getD i 0) (before distance above i))) #[]

/-- The 16-bit number at two adjacent bytes. -/
def sample (row : Array UInt8) (i : Nat) : Nat :=
  (row.getD i 0).toNat * 256 + (row.getD (i + 1) 0).toNat

/-- Adds to every 16-bit sample the restored one `colors` samples before it. -/
def restoreWords (colors : Nat) (row : Array UInt8) : Array UInt8 :=
  Nat.fold (row.size / 2) (fun k _ done =>
    let left := if colors ≤ k then sample done (2 * (k - colors)) else 0
    let sum := sample row (2 * k) + left
    (done.push (UInt8.ofNat (sum / 256))).push (UInt8.ofNat sum)) #[]

end Predictor

structure Predictor where
  layout : Predictor.Layout
  /-- The last restored row; zeros at first. -/
  above : Array UInt8
  /-- Where a PNG row is restored, before it takes the place of the row above. -/
  scratch : Array UInt8
  /-- The row that is coming in. -/
  pending : Array UInt8 := #[]
  deriving DecidableEq

namespace Predictor

def positive (parms : DecodeParms) (key : String) (default : Int) : Except Error Nat := do
  let value ← parms.intD key default
  if 0 < value then return value.toNat else throw (.configuration (.notPositive key))

/-- The layout that parameters ask for; predictor 1 asks for none. -/
def layout? (parms : Option DecodeParms) : Except Error (Option Layout) :=
  match parms with
  | none => .ok none
  | some parms => do
    let predictor ← parms.intD "Predictor" 1
    if predictor = 1 then return none
    let scheme ←
      if predictor = 2 then pure Scheme.tiff
      else if 10 ≤ predictor ∧ predictor ≤ 15 then pure Scheme.png
      else throw (.configuration (.unsupportedPredictor predictor))
    let colors ← positive parms "Colors" 1
    let bits ← positive parms "BitsPerComponent" 8
    let columns ← positive parms "Columns" 1
    return some (← Layout.create scheme colors bits columns)

def ofLayout (layout : Layout) : Predictor :=
  { layout, above := Array.replicate layout.rowBytes 0
    scratch := Array.replicate layout.rowBytes 0 }

def ofParms (parms : Option DecodeParms) : Except Error (Option Predictor) :=
  (layout? parms).map (·.map ofLayout)

/-- The restored form of a complete row, given the row above. -/
def restore (layout : Layout) (above row : Array UInt8) : Except Error (Array UInt8) :=
  match layout.scheme with
  | .png =>
    let tag := row.getD 0 0
    match predict? tag with
    | some predict =>
      .ok (restoreBytes predict layout.distance above (row.extract 1 row.size))
    | none => .error (.decode (.pngFilter tag))
  | .tiff =>
    if layout.bits = 8 then .ok (restoreBytes (fun left _ _ => left) layout.colors above row)
    else .ok (restoreWords layout.colors row)

/-- Puts a restored row in place. A PNG row leaves the place it was restored in to the row above. -/
def accept (p : Predictor) (row : Array UInt8) : Predictor :=
  { p with
    above := row
    scratch := match p.layout.scheme with
      | .png => p.above
      | .tiff => p.scratch
    pending := #[] }

/-- A row is restored and written with its last byte. A row that cannot be restored stays. -/
def addByte (p : Predictor) (b : UInt8) : Step Predictor :=
  let size := p.layout.rowSize
  let pending := if p.pending.size < size then p.pending.push b else p.pending
  if pending.size < size then .quiet { p with pending }
  else
    match restore p.layout p.above pending with
    | .ok row => .write (p.accept row) row.toList
    | .error e => .stop { p with pending } e

def push (p : Predictor) (data : Bytes) : Step Predictor := Step.run addByte p data

/-- An incomplete last row is dropped. -/
def finish (p : Predictor) : Step Predictor := .quiet { p with pending := #[] }

/-- Hands decoded bytes on, through the predictor if there is one. -/
def pass (p : Option Predictor) (data : Bytes) : Step (Option Predictor) :=
  match p with
  | none => .write none data
  | some p => (p.push data).map some

/-- Hands on piece after piece. If one fails, the pieces after it are left. -/
def passAll (out : Step (Option Predictor)) :
    List Bytes → Step (Option Predictor) × List Bytes
  | [] => (out, [])
  | piece :: pieces =>
    let out := out.andThen (pass · piece)
    if out.fault.isSome then (out, pieces) else passAll out pieces

def close (p : Option Predictor) : Step (Option Predictor) :=
  match p with
  | none => .quiet none
  | some p => p.finish.map some

end Predictor
end PdfStream
