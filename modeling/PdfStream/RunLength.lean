import PdfStream.Step

/-!
The RunLength filter. A record is a header below 128 and that many bytes plus one, or a header h
above 128 and one byte that stands for 257 - h copies; header 128 ends the data.
-/
namespace PdfStream
namespace RunLength

/-- What the reader expects next. -/
inductive Expect where
  | header
  | literal (remaining : Nat)
  | copies (count : Nat)
  | done
  deriving DecidableEq, Repr

/-- Equal bytes that may still grow. -/
structure Run where
  byte : UInt8
  count : Nat
  deriving DecidableEq, Repr

end RunLength

structure RunLength where
  /-- Bytes of the open literal record. -/
  literal : Bytes := []
  run : Option RunLength.Run := none
  expect : RunLength.Expect := .header
  deriving DecidableEq, Repr

namespace RunLength

def eod : UInt8 := 128

/-- No record stands for more bytes. -/
def maxRun : Nat := 128

def beginEncode (c : RunLength) : Step RunLength :=
  .quiet { c with literal := [], run := none }

def flushLiteral (c : RunLength) : Step RunLength :=
  if c.literal = [] then .quiet c
  else ⟨{ c with literal := [] }, #[[UInt8.ofNat (c.literal.length - 1)], c.literal], none⟩

/-- Two or more equal bytes become a repeat record; a single byte joins the literal. -/
def closeRun (c : RunLength) : Step RunLength :=
  match c.run with
  | none => .quiet c
  | some run =>
    if run.count = 1 then
      (if c.literal.length = maxRun then flushLiteral c else .quiet c).andThen fun c =>
        .quiet { c with literal := c.literal ++ [run.byte], run := none }
    else
      (flushLiteral c).andThen fun c =>
        .write { c with run := none } [UInt8.ofNat (257 - run.count), run.byte]

def addByte (c : RunLength) (b : UInt8) : Step RunLength :=
  match c.run with
  | some run =>
    if b = run.byte ∧ run.count < maxRun then .quiet { c with run := some ⟨b, run.count + 1⟩ }
    else (closeRun c).andThen fun c => .quiet { c with run := some ⟨b, 1⟩ }
  | none => .quiet { c with run := some ⟨b, 1⟩ }

def encodeBlock (c : RunLength) (data : Bytes) : Step RunLength := Step.run addByte c data

def endEncode (c : RunLength) : Step RunLength :=
  ((closeRun c).andThen flushLiteral).andThen (.write · [eod])

def beginDecode (c : RunLength) : Step RunLength := .quiet { c with expect := .header }

/-- What a header announces. -/
def Expect.ofHeader (header : UInt8) : Expect :=
  if header < eod then .literal (header.toNat + 1)
  else if header = eod then .done
  else .copies (257 - header.toNat)

/-- The reader inside a block, with the bytes of the current literal that the block has brought. -/
structure Reader where
  expect : Expect
  portion : Array UInt8 := #[]

def readByte (r : Reader) (b : UInt8) : Step Reader :=
  match r.expect with
  | .done => .quiet r
  | .header => .quiet { r with expect := .ofHeader b }
  | .literal remaining =>
    let portion := r.portion.push b
    if remaining ≤ 1 then .write ⟨.header, #[]⟩ portion.toList
    else .quiet ⟨.literal (remaining - 1), portion⟩
  | .copies count => .write { r with expect := .header } (List.replicate count b)

/-- Each literal is written in one piece as far as the block brings it. -/
def decodeBlock (c : RunLength) (data : Bytes) : Step RunLength :=
  ((Step.run readByte ⟨c.expect, #[]⟩ data).andThen fun r =>
    .write ⟨r.expect, #[]⟩ r.portion.toList).map fun r => { c with expect := r.expect }

def endDecode (c : RunLength) : Step RunLength :=
  match c.expect with
  | .header | .done => .quiet c
  | .literal remaining => .stop c (.decode (.literalCut remaining))
  | .copies _ => .stop c (.decode .repeatCut)

end RunLength
end PdfStream
