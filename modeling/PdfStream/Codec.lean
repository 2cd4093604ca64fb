import PdfStream.Ascii85
import PdfStream.Crypt
import PdfStream.Flate
import PdfStream.Lzw
import PdfStream.RunLength

/-!
The codecs behind the filters. Only the start of a session sees the crypto context.
-/
namespace PdfStream

inductive Codec where
  | runLength (c : RunLength)
  | lzw (c : Lzw)
  | ascii85 (c : Ascii85)
  | asciiHex (c : AsciiHex)
  | flate (c : Flate)
  | crypt (c : Crypt)

/-- The filter with this name, one leading slash aside. -/
def FilterKind.ofName (text : String) : Except Error FilterKind :=
  let bare := bareName text
  match find? bare with
  | some kind => .ok kind
  | none => .error (.configuration (.unsupportedFilter bare))

namespace Codec

def kind : Codec → FilterKind
  | .runLength _ => .runLength
  | .lzw _ => .lzw
  | .ascii85 _ => .ascii85
  | .asciiHex _ => .asciiHex
  | .flate _ => .flate
  | .crypt _ => .crypt

/-- A crypt filter needs a key, so it has no default codec. -/
def ofKind : FilterKind → Except Error Codec
  | .runLength => .ok (.runLength {})
  | .lzw => .ok (.lzw {})
  | .ascii85 => .ok (.ascii85 {})
  | .asciiHex => .ok (.asciiHex {})
  | .flate => .ok (.flate {})
  | .crypt => .error (.configuration .keyMaterialRequired)

/-- All six filters run both ways. -/
def supports (_ : Codec) (_ : Direction) : Bool := true

theorem kind_of_ofKind {kind : FilterKind} {c : Codec} (h : ofKind kind = .ok c) :
    c.kind = kind := by
  cases kind <;> cases h <;> rfl

def beginEncode (ctx : CryptoContext) : Codec → CryptoContext × Step Codec
  | .runLength c => (ctx, c.beginEncode.map .runLength)
  | .lzw c => (ctx, c.beginEncode.map .lzw)
  | .ascii85 c => (ctx, c.beginEncode.map .ascii85)
  | .asciiHex c => (ctx, .quiet (.asciiHex c))
  | .flate c => (ctx, c.beginEncode.map .flate)
  | .crypt c =>
    let (ctx, step) := c.beginEncode ctx
    (ctx, step.map .crypt)

def encodeBlock (data : Bytes) : Codec → Step Codec
  | .runLength c => (c.encodeBlock data).map .runLength
  | .lzw c => (c.encodeBlock data).map .lzw
  | .ascii85 c => (c.encodeBlock data).map .ascii85
  | .asciiHex c => (c.encodeBlock data).map .asciiHex
  | .flate c => (c.encodeBlock data).map .flate
  | .crypt c => (c.encodeBlock data).map .crypt

def endEncode : Codec → Step Codec
  | .runLength c => c.endEncode.map .runLength
  | .lzw c => c.endEncode.map .lzw
  | .ascii85 c => c.endEncode.map .ascii85
  | .asciiHex c => c.endEncode.map .asciiHex
  | .flate c => c.endEncode.map .flate
  | .crypt c => c.endEncode.map .crypt

def beginDecode (ctx : CryptoContext) (parms : Option DecodeParms) :
    Codec → CryptoContext × Step Codec
  | .runLength c => (ctx, c.beginDecode.map .runLength)
  | .lzw c => (ctx, (c.beginDecode parms).map .lzw)
  | .ascii85 c => (ctx, c.beginDecode.map .ascii85)
  | .asciiHex c => (ctx, c.beginDecode.map .asciiHex)
  | .flate c => (ctx, (c.beginDecode parms).map .flate)
  | .crypt c =>
    let (ctx, step) := c.beginDecode parms ctx
    (ctx, step.map .crypt)

def decodeBlock (data : Bytes) : Codec → Step Codec
  | .runLength c => (c.decodeBlock data).map .runLength
  | .lzw c => (c.decodeBlock data).map .lzw
  | .ascii85 c => (c.decodeBlock data).map .ascii85
  | .asciiHex c => (c.decodeBlock data).map .asciiHex
  | .flate c => (c.decodeBlock data).map .flate
  | .crypt c => (c.decodeBlock data).map .crypt

def endDecode : Codec → Step Codec
  | .runLength c => c.endDecode.map .runLength
  | .lzw c => c.endDecode.map .lzw
  | .ascii85 c => c.endDecode.map .ascii85
  | .asciiHex c => c.endDecode.map .asciiHex
  | .flate c => c.endDecode.map .flate
  | .crypt c => c.endDecode.map .crypt

/-- Starts a session. Encoding has no parameters. -/
def start (direction : Direction) (ctx : CryptoContext) (parms : Option DecodeParms) (c : Codec) :
    CryptoContext × Step Codec :=
  match direction with
  | .encode => c.beginEncode ctx
  | .decode => c.beginDecode ctx parms

def block (direction : Direction) (data : Bytes) (c : Codec) : Step Codec :=
  match direction with
  | .encode => c.encodeBlock data
  | .decode => c.decodeBlock data

def finish (direction : Direction) (c : Codec) : Step Codec :=
  match direction with
  | .encode => c.endEncode
  | .decode => c.endDecode

/-- A whole session on one block, with nothing in the way of its output. -/
def oneShot (direction : Direction) (ctx : CryptoContext) (parms : Option DecodeParms)
    (data : Bytes) (c : Codec) : Except Error Bytes :=
  let (_, first) := c.start direction ctx parms
  let whole := (first.andThen (·.block direction data)).andThen (·.finish direction)
  match whole.fault with
  | some e => .error e
  | none => .ok whole.bytes

end Codec

def AsciiHex.decode (data : Bytes) : Except Error Bytes :=
  (Codec.asciiHex {}).oneShot .decode {} none data

def Ascii85.decode (data : Bytes) : Except Error Bytes :=
  (Codec.ascii85 {}).oneShot .decode {} none data

def Ascii85.encode (data : Bytes) : Except Error Bytes :=
  (Codec.ascii85 {}).oneShot .encode {} none data

def RunLength.decode (data : Bytes) : Except Error Bytes :=
  (Codec.runLength {}).oneShot .decode {} none data

def RunLength.encode (data : Bytes) : Except Error Bytes :=
  (Codec.runLength {}).oneShot .encode {} none data

def Lzw.decodeWith (earlyChange : Int) (data : Bytes) : Except Error Bytes :=
  (Codec.lzw {}).oneShot .decode {} (some (.ofList [("EarlyChange", .int earlyChange)])) data

def Lzw.decode (data : Bytes) : Except Error Bytes := Lzw.decodeWith 1 data

end PdfStream
