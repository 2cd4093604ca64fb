import PdfStream.AsciiHex

/-!
The ASCII85 filter: four bytes as five digits of base 85, `z` for four zero bytes, `~>` at the end.
A last group of n bytes is written with n + 1 digits. Reading allows a leading `<~` and a missing or
unfinished `~>`.
-/
namespace PdfStream
namespace Ascii85

/-- Where the reader stands between the optional `<~` and the final `~>`. -/
inductive Marker where
  | start
  /-- After a first `<`: an opening mark if `~` follows, otherwise a digit. -/
  | opening
  | body
  /-- After `~`: only `>` may follow. -/
  | closing
  | done
  deriving DecidableEq, Repr

end Ascii85

structure Ascii85 where
  /-- The unfinished group: bytes while encoding, digits while decoding. -/
  group : Bytes := []
  marker : Ascii85.Marker := .start
  deriving DecidableEq, Repr

namespace Ascii85

def eod : Bytes := [0x7E, 0x3E]

/-- The `count` low base-85 digits of `n` as characters, high digit first. -/
def digits : (count n : Nat) → Bytes
  | 0, _ => []
  | count + 1, n => digits count (n / 85) ++ [0x21 + UInt8.ofNat (n % 85)]

/-- The number with these base-85 digits. -/
def value (group : Bytes) : Nat := group.foldl (fun n d => n * 85 + d.toNat) 0

def encodeGroup (group : Bytes) : Bytes :=
  if group = [0, 0, 0, 0] then [0x7A] else digits 5 (Bytes.toNat group)

def decodeGroup (group : Bytes) : Except Error Bytes :=
  if value group < 1 <<< 32 then .ok (Bytes.ofNat 4 (value group))
  else .error (.decode .base85Overflow)

def beginEncode (c : Ascii85) : Step Ascii85 := .quiet { c with group := [] }

def addByte (c : Ascii85) (b : UInt8) : Step Ascii85 :=
  let group := c.group ++ [b]
  if group.length = 4 then .write { c with group := [] } (encodeGroup group)
  else .quiet { c with group := group }

def encodeBlock (c : Ascii85) (data : Bytes) : Step Ascii85 :=
  (Step.run addByte c data).joined

/-- The last group never uses `z`. -/
def endEncode (c : Ascii85) : Step Ascii85 :=
  if c.group = [] then .write c eod
  else
    let padded := c.group ++ List.replicate (4 - c.group.length) 0
    ⟨{ c with group := [] },
      #[(digits 5 (Bytes.toNat padded)).take (c.group.length + 1), eod], none⟩

def beginDecode (_ : Ascii85) : Step Ascii85 := .quiet {}

def pushDigit (c : Ascii85) (d : UInt8) : Step Ascii85 :=
  let group := c.group ++ [d]
  if group.length = 5 then
    match decodeGroup group with
    | .ok bytes => .write { c with group := [] } bytes
    | .error e => .stop { c with group := group } e
  else .quiet { c with group := group }

/-- The last group: n digits, padded with the highest digit, stand for n - 1 bytes. -/
def closeGroup (c : Ascii85) : Step Ascii85 :=
  match c.group with
  | [] => .quiet c
  | [_] => .stop c (.decode .base85LoneDigit)
  | group =>
    match decodeGroup (group ++ List.replicate (5 - group.length) 84) with
    | .ok bytes => .write { c with group := [] } (bytes.take (group.length - 1))
    | .error e => .stop c e

/-- A byte outside the two marks. -/
def readBody (c : Ascii85) (b : UInt8) : Step Ascii85 :=
  if isPdfBlank b then .quiet c
  else
    let atStart := c.marker = .start
    let c := { c with marker := .body }
    if b = 0x3C ∧ atStart then .quiet { c with marker := .opening }
    else if b = 0x7E then .quiet { c with marker := .closing }
    else if b = 0x7A then
      if c.group = [] then .write c [0, 0, 0, 0]
      else .stop c (.decode .base85ZeroInGroup)
    else if 0x21 ≤ b ∧ b ≤ 0x75 then pushDigit c (b - 0x21)
    else .stop c (.decode (.base85Character b))

def readByte (c : Ascii85) (b : UInt8) : Step Ascii85 :=
  match c.marker with
  | .done => .quiet c
  | .opening =>
    let c := { c with marker := .body }
    if b = 0x7E then .quiet c
    else (pushDigit c (0x3C - 0x21)).andThen (readBody · b)
  | .closing =>
    if b = 0x3E then closeGroup { c with marker := .done }
    else .stop c (.decode (.base85Close b))
  | .start | .body => readBody c b

def decodeBlock (c : Ascii85) (data : Bytes) : Step Ascii85 := Step.run readByte c data

def endDecode (c : Ascii85) : Step Ascii85 :=
  match c.marker with
  | .done => .quiet c
  | .opening => (pushDigit { c with marker := .done } (0x3C - 0x21)).andThen closeGroup
  | .start | .body | .closing => closeGroup { c with marker := .done }

end Ascii85
end PdfStream
