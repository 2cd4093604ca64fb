import PdfStream.Proofs.Checked.Cipher
import PdfStream.Proofs.Checked.Flate
import PdfStream.Proofs.Checked.Lzw
import PdfStream.Proofs.Checked.Text
import PdfStream.Proofs.Engine.Invariant

/-!
The bounds of all codecs. A start that succeeds establishes those of its direction, whatever the
codec looked like before; blocks that succeed keep them; and within them every call of a codec comes
to the same with its operations checked.
-/
namespace PdfStream.Codec

/-- A codec is within its bounds for an open session in this direction. -/
def InBounds (direction : Direction) : Codec → Prop
  | .runLength c =>
    match direction with
    | .encode => c.Bounded
    | .decode => c.ReadsBounded
  | .lzw c => c.InBounds direction
  | .ascii85 c =>
    match direction with
    | .encode => c.HasAtMost 3
    | .decode => c.HasAtMost 4
  | .asciiHex _ => True
  | .flate c => c.InBounds direction
  | .crypt c => c.InBounds direction

/-- Only the ciphers have work to do at a start. -/
def start? (direction : Direction) (ctx : CryptoContext) (parms : Option DecodeParms) (c : Codec) :
    Option (CryptoContext × Step Codec) :=
  match direction, c with
  | .encode, .crypt c => (c.beginEncode? ctx).map fun (ctx, step) => (ctx, step.map .crypt)
  | .decode, .crypt c => (c.beginDecode? parms ctx).map fun (ctx, step) => (ctx, step.map .crypt)
  | direction, c => some (c.start direction ctx parms)

def block? (direction : Direction) (data : Bytes) (c : Codec) : Option (Step Codec) :=
  match direction, c with
  | .encode, .runLength c => (c.encodeBlock? data).map (Step.map .runLength)
  | .encode, .lzw c => (c.encodeBlock? data).map (Step.map .lzw)
  | .encode, .ascii85 c => (c.encodeBlock? data).map (Step.map .ascii85)
  | .encode, .asciiHex c => some ((c.encodeBlock data).map .asciiHex)
  | .encode, .flate c => (c.encodeBlock? data).map (Step.map .flate)
  | .encode, .crypt c => (c.encodeBlock? data).map (Step.map .crypt)
  | .decode, .runLength c => (c.decodeBlock? data).map (Step.map .runLength)
  | .decode, .lzw c => (c.decodeBlock? data).map (Step.map .lzw)
  | .decode, .ascii85 c => (c.decodeBlock? data).map (Step.map .ascii85)
  | .decode, .asciiHex c => (c.decodeBlock? data).map (Step.map .asciiHex)
  | .decode, .flate c => (c.decodeBlock? data).map (Step.map .flate)
  | .decode, .crypt c => (c.decodeBlock? data).map (Step.map .crypt)

def finish? (direction : Direction) (c : Codec) : Option (Step Codec) :=
  match direction, c with
  | .encode, .runLength c => c.endEncode?.map (Step.map .runLength)
  | .encode, .lzw c => c.endEncode?.map (Step.map .lzw)
  | .encode, .ascii85 c => c.endEncode?.map (Step.map .ascii85)
  | .encode, .asciiHex c => some (c.endEncode.map .asciiHex)
  | .encode, .flate c => c.endEncode?.map (Step.map .flate)
  | .encode, .crypt c => c.endEncode?.map (Step.map .crypt)
  | .decode, .runLength c => some (c.endDecode.map .runLength)
  | .decode, .lzw c => c.endDecode?.map (Step.map .lzw)
  | .decode, .ascii85 c => c.endDecode?.map (Step.map .ascii85)
  | .decode, .asciiHex c => some (c.endDecode.map .asciiHex)
  | .decode, .flate c => c.endDecode?.map (Step.map .flate)
  | .decode, .crypt c => c.endDecode?.map (Step.map .crypt)

section
variable {c : Codec} {direction : Direction}

theorem start?_eq (direction : Direction) (ctx : CryptoContext) (parms : Option DecodeParms)
    (c : Codec) : c.start? direction ctx parms = some (c.start direction ctx parms) := by
  cases c with
  | crypt c =>
    cases direction with
    | encode =>
      simp only [start?, c.beginEncode?_eq, Option.map_some]
      rfl
    | decode =>
      simp only [start?, c.beginDecode?_eq, Option.map_some]
      rfl
  | runLength | lzw | ascii85 | asciiHex | flate => cases direction <;> rfl

theorem inBounds_start (direction : Direction) (ctx : CryptoContext) (parms : Option DecodeParms)
    (c : Codec) (h : (c.start direction ctx parms).2.fault = none) :
    (c.start direction ctx parms).2.state.InBounds direction := by
  cases direction with
  | encode =>
    cases c with
    | runLength c => exact c.bounded_begun
    | lzw c => exact c.inBounds_beginEncode
    | ascii85 c => exact Nat.zero_le 3
    | asciiHex | flate => trivial
    | crypt c => exact c.inBounds_beginEncode ctx h
  | decode =>
    cases c with
    | runLength | asciiHex => trivial
    | lzw c => exact c.inBounds_beginDecode parms h
    | ascii85 c => exact Nat.zero_le 4
    | flate c => exact c.inBounds_beginDecode parms h
    | crypt c => exact c.inBounds_beginDecode parms ctx h

theorem inRange_block (h : c.InBounds direction) (data : Bytes) :
    Step.InRange (InBounds direction) (c.block? direction data) (c.block direction data) := by
  cases direction with
  | encode =>
    cases c with
    | runLength c => exact (RunLength.inRange_encodeBlock h data).map fun _ => id
    | lzw c => exact (Lzw.inRange_encodeBlock h data).map fun _ => id
    | ascii85 c => exact (Ascii85.inRange_encodeBlock h data).map fun _ => id
    | asciiHex c => exact Step.inRange_write trivial _
    | flate c => exact (Flate.inRange_encodeBlock c data).map fun _ => id
    | crypt c => exact (Crypt.inRange_encodeBlock h data).map fun _ => id
  | decode =>
    cases c with
    | runLength c => exact (RunLength.inRange_decodeBlock h data).map fun _ => id
    | lzw c => exact (Lzw.inRange_decodeBlock h data).map fun _ => id
    | ascii85 c => exact (Ascii85.inRange_decodeBlock h data).map fun _ => id
    | asciiHex c => exact (AsciiHex.inRange_decodeBlock c data).map fun _ => id
    | flate c => exact (Flate.inRange_decodeBlock h data).map fun _ => id
    | crypt c => exact (Crypt.inRange_decodeBlock h data).map fun _ => id

theorem inRange_finish (h : c.InBounds direction) :
    Step.InRange (fun _ => True) (c.finish? direction) (c.finish direction) := by
  cases direction with
  | encode =>
    cases c with
    | runLength c => exact (RunLength.inRange_endEncode h).map fun _ => id
    | lzw c => exact (Lzw.inRange_endEncode h).map fun _ => id
    | ascii85 c => exact (Ascii85.inRange_endEncode h).map fun _ => id
    | asciiHex c => exact Step.inRange_write trivial _
    | flate c => exact (Flate.inRange_endEncode c).map fun _ => id
    | crypt c => exact (Crypt.inRange_endEncode h).map fun _ _ => trivial
  | decode =>
    cases c with
    | runLength | asciiHex => exact ⟨rfl, fun _ => trivial⟩
    | lzw c => exact (Lzw.inRange_endDecode h).map fun _ => id
    | ascii85 c => exact (Ascii85.inRange_endDecode h).map fun _ _ => trivial
    | flate c => exact (Flate.inRange_endDecode h).map fun _ => id
    | crypt c => exact c.inRange_endDecode.map fun _ => id

theorem isInvariant_inBounds : IsInvariant InBounds where
  start := inBounds_start
  block := fun _ data _ h => (inRange_block h data).keeps

end
end PdfStream.Codec
