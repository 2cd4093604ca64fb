import PdfStream.Lzw.Reader

/-!
The LZW filter. Encoding uses the codec's own early-change setting, decoding that of the parameters;
a predictor works on what was decoded.
-/
namespace PdfStream

structure Lzw where
  earlyChange : Bool := true
  encoder : Option Lzw.Encoder := none
  reader : Option Lzw.Reader := none
  predictor : Option Predictor := none
  /-- The end code was seen. -/
  finished : Bool := false

namespace Lzw

def notStarted (c : Lzw) (direction : Direction) : Step Lzw :=
  .stop c (.usage (.lzwNotStarted direction))

def beginEncode (c : Lzw) : Step Lzw :=
  .quiet { c with encoder := some (.create c.earlyChange) }

def encodeBlock (c : Lzw) (data : Bytes) : Step Lzw :=
  match c.encoder with
  | none => c.notStarted .encode
  | some encoder => (encoder.feed data).map fun e => { c with encoder := some e }

def endEncode (c : Lzw) : Step Lzw :=
  match c.encoder with
  | none => c.notStarted .encode
  | some encoder => encoder.finish.map fun _ => { c with encoder := none }

/-- The early-change setting and the predictor that parameters ask for. -/
def settings (parms : Option DecodeParms) : Except Error (Bool × Option Predictor) := do
  let early ← match parms with
    | some p => p.intD "EarlyChange" 1
    | none => pure 1
  return (early ≠ 0, ← Predictor.ofParms parms)

def beginDecode (c : Lzw) (parms : Option DecodeParms) : Step Lzw :=
  match settings parms with
  | .error e => .stop c e
  | .ok (early, predictor) =>
    .quiet { c with predictor, reader := some (.create early), finished := false }

def decodeBlock (c : Lzw) (data : Bytes) : Step Lzw :=
  if c.finished then .quiet c
  else
    match c.reader with
    | none => c.notStarted .decode
    | some reader =>
      ((reader.feed data c.predictor).map fun (reader, predictor) =>
        { c with reader := some reader, predictor }).andThen fun c =>
          .quiet { c with finished := c.reader.any Reader.finished }

def endDecode (c : Lzw) : Step Lzw :=
  (c.decodeBlock []).andThen fun c =>
    let c := { c with reader := none }
    if !c.finished then .stop c (.decode .lzwCut)
    else (Predictor.close c.predictor).map fun predictor => { c with predictor }

end Lzw
end PdfStream
