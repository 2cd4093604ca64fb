import PdfStream.Codec
import PdfStream.Sink

/-!
The filter engine: one codec and, while a session is open, the sink it writes to. A call that the
phase does not allow changes nothing; a failure ends the session and drops the sink.
-/
namespace PdfStream

/-- Where an engine or a chain stands, and the sink it is bound to. -/
structure Session where
  phase : Phase := .idle
  sink? : Option Sink := none

namespace Session

def idle : Session := {}

def failed : Session := ⟨.failed, none⟩

def active (direction : Direction) (sink : Sink) : Session := ⟨direction.phase, some sink⟩

def isActive (s : Session) : Bool := s.phase.isActive

end Session

/-- What a call came to. -/
inductive Reply where
  /-- Done; a session is open. -/
  | done
  /-- Done; the session is over and its sink handed back. -/
  | returned (sink : Sink)
  /-- Refused; nothing has changed. -/
  | refused (error : Error)
  /-- The session failed and let go of its sink. -/
  | broken (error : Error) (sink? : Option Sink)

namespace Reply

def error? : Reply → Option Error
  | .refused e | .broken e _ => some e
  | _ => none

/-- The sink that the call let go of. -/
def sink? : Reply → Option Sink
  | .returned s => some s
  | .broken _ s => s
  | _ => none

/-- What a finished session has put out. -/
def output : Reply → Except Error Bytes
  | .done => .ok []
  | .returned s => .ok s.content
  | .refused e | .broken e _ => .error e

end Reply

/-- Writes a step's spans, then flushes if asked. A failure of the sink comes before the codec's. -/
def Sink.carryOut (s : Sink) (flush : Bool) (step : Step Codec) : Sink × Except Error Unit :=
  match s.deliver step.spans.toList with
  | (s, .error e) => (s, .error e)
  | (s, .ok ()) =>
    match step.fault with
    | some e => (s, .error e)
    | none => if flush then s.flush else (s, .ok ())

structure Engine where
  codec : Codec
  session : Session := .idle

namespace Engine

def ofKind (kind : FilterKind) : Except Error Engine :=
  (Codec.ofKind kind).map fun codec => { codec }

def kind (e : Engine) : FilterKind := e.codec.kind

def phase (e : Engine) : Phase := e.session.phase

def refuse (e : Engine) (call : Call) : Engine × Reply :=
  (e, .refused (.usage (.engineCall e.kind call e.phase)))

/-- There is no sink to work on. -/
def unbound (e : Engine) : Reply := .refused (.usage (.engineUnbound e.kind))

/-- Carries out a step of the codec on the bound sink. A failure ends the session. -/
def deliver (e : Engine) (flush : Bool) (step : Step Codec) : Engine × Reply :=
  match e.session.sink? with
  | none => (e, e.unbound)
  | some sink =>
    match sink.carryOut flush step with
    | (sink, .error error) => (⟨step.state, .failed⟩, .broken error sink)
    | (sink, .ok ()) => (⟨step.state, ⟨e.phase, sink⟩⟩, .done)

/-- Opens a session on a sink. -/
def start (e : Engine) (direction : Direction) (sink : Sink) (parms : Option DecodeParms)
    (ctx : CryptoContext) : CryptoContext × Engine × Reply :=
  if e.phase.isActive then (ctx, e.refuse .begin)
  else if !e.codec.supports direction then
    (ctx, e, .refused (.configuration (.unsupportedDirection e.kind direction)))
  else
    let (ctx, step) := e.codec.start direction ctx parms
    (ctx, { e with session := .active direction sink }.deliver false step)

def beginEncode (e : Engine) (sink : Sink) (ctx : CryptoContext) :
    CryptoContext × Engine × Reply :=
  e.start .encode sink none ctx

def beginDecode (e : Engine) (sink : Sink) (parms : Option DecodeParms) (ctx : CryptoContext) :
    CryptoContext × Engine × Reply :=
  e.start .decode sink parms ctx

/-- Feeds a block to an open session of this direction. -/
def block (e : Engine) (direction : Direction) (data : Bytes) : Engine × Reply :=
  if e.phase = direction.phase then e.deliver false (e.codec.block direction data)
  else e.refuse (.block direction)

def encodeBlock (e : Engine) (data : Bytes) : Engine × Reply := e.block .encode data

def decodeBlock (e : Engine) (data : Bytes) : Engine × Reply := e.block .decode data

/-- Lets the codec write its last bytes, flushes the sink and hands it back. -/
def finish (e : Engine) (direction : Direction) : Engine × Reply :=
  if e.phase = direction.phase then
    match e.deliver true (e.codec.finish direction) with
    | (e, .done) =>
      match e.session.sink? with
      | none => (e, e.unbound)
      | some sink => ({ e with session := .idle }, .returned sink)
    | outcome => outcome
  else e.refuse (.finish direction)

def endEncode (e : Engine) : Engine × Reply := e.finish .encode

def endDecode (e : Engine) : Engine × Reply := e.finish .decode

/-- Gives up an open session without asking the codec. -/
def fail (e : Engine) : Engine × Reply :=
  if e.phase.isActive then
    match e.session.sink? with
    | none => ({ e with session := .failed }, e.unbound)
    | some sink => ({ e with session := .failed }, .returned sink)
  else e.refuse .fail

/-- A whole session on one block, as far as it goes. -/
def oneShot (e : Engine) (direction : Direction) (sink : Sink) (parms : Option DecodeParms)
    (data : Bytes) (ctx : CryptoContext) : CryptoContext × Engine × Reply :=
  match e.start direction sink parms ctx with
  | (ctx, e, .done) =>
    match e.block direction data with
    | (e, .done) => (ctx, e.finish direction)
    | outcome => (ctx, outcome)
  | outcome => outcome

def encodeTo (e : Engine) (sink : Sink) (data : Bytes) (ctx : CryptoContext) :
    CryptoContext × Engine × Reply :=
  e.oneShot .encode sink none data ctx

def decodeTo (e : Engine) (sink : Sink) (parms : Option DecodeParms) (data : Bytes)
    (ctx : CryptoContext) : CryptoContext × Engine × Reply :=
  e.oneShot .decode sink parms data ctx

/-- Takes out what the bound sink holds. -/
def drain (e : Engine) : Engine × Bytes :=
  match e.session.sink? with
  | none => (e, [])
  | some sink =>
    ({ e with session := ⟨e.phase, some { sink with held := #[] }⟩ }, sink.content)

end Engine
end PdfStream
