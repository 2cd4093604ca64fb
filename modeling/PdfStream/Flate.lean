import PdfStream.Flate.Deflate
import PdfStream.Flate.Reader

/-!
The Flate filter: zlib streams, with a predictor on what was decoded.
-/
namespace PdfStream

structure Flate where
  /-- From 0, which stores, to 9. -/
  level : Nat := 6
  encoder : Option Flate.Deflate := none
  reader : Option Flate.Reader := none
  predictor : Option Predictor := none
  /-- The end of the stream was seen. -/
  finished : Bool := false

namespace Flate

def notStarted (c : Flate) (direction : Direction) : Step Flate :=
  .stop c (.usage (.flateNotStarted direction))

def beginEncode (c : Flate) : Step Flate :=
  .quiet { c with encoder := some { level := c.level } }

def encodeBlock (c : Flate) (data : Bytes) : Step Flate :=
  if data = [] then .quiet c
  else
    match c.encoder with
    | none => c.notStarted .encode
    | some encoder => (encoder.feed data).map fun e => { c with encoder := some e }

def endEncode (c : Flate) : Step Flate :=
  match c.encoder with
  | none => c.notStarted .encode
  | some encoder => encoder.finish.map fun _ => { c with encoder := none }

def beginDecode (c : Flate) (parms : Option DecodeParms) : Step Flate :=
  match Predictor.ofParms parms with
  | .error e => .stop c e
  | .ok predictor => .quiet { c with predictor, reader := some {}, finished := false }

def decodeBlock (c : Flate) (data : Bytes) : Step Flate :=
  if c.finished then .quiet c
  else
    match c.reader with
    | none => c.notStarted .decode
    | some reader =>
      ((reader.feed data c.predictor).map fun (reader, predictor) =>
        { c with reader := some reader, predictor }).andThen fun c =>
          .quiet { c with finished := c.reader.any (·.inflate.isFinished) }

def endDecode (c : Flate) : Step Flate :=
  (c.decodeBlock []).andThen fun c =>
    let c := { c with reader := none }
    if !c.finished then .stop c (.decode .deflateCut)
    else (Predictor.close c.predictor).map fun predictor => { c with predictor }

end Flate
end PdfStream
