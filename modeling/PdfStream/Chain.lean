import PdfStream.Engine

/-!
Filter chains: engines that feed one another, kept in encode order and run backwards to decode. Each
stage writes to a buffer of its own; only what leaves the last one reaches the chain's sink.
-/
namespace PdfStream

structure Stage where
  engine : Engine
  parms : Option DecodeParms := none

structure Chain where
  /-- In encode order. -/
  stages : List Stage := []
  session : Session := .idle

namespace Chain

/-- Default codecs, in encode order. -/
def ofKinds (kinds : List FilterKind) : Except Error Chain := do
  return { stages := (← kinds.mapM Engine.ofKind).map fun engine => { engine } }

/-- Filter names with their parameters as a document lists them, in decode order. -/
def ofDecodeOrder (filters : List (String × Option DecodeParms)) : Except Error Chain := do
  let stages ← filters.mapM fun (name, parms) => do
    let engine ← Engine.ofKind (← FilterKind.ofName name)
    return { engine, parms : Stage }
  return { stages := stages.reverse }

/-- Adds a stage that runs last when encoding and first when decoding. -/
def push (c : Chain) (codec : Codec) (parms : Option DecodeParms) : Chain :=
  { c with stages := c.stages ++ [{ engine := { codec }, parms }] }

def length (c : Chain) : Nat := c.stages.length

def isEmpty (c : Chain) : Bool := c.stages.isEmpty

def phase (c : Chain) : Phase := c.session.phase

def kinds (c : Chain) : List FilterKind := c.stages.map (·.engine.kind)

/-- The stages in the order they run, or back in encode order. -/
def inOrder (direction : Direction) (stages : List Stage) : List Stage :=
  match direction with
  | .encode => stages
  | .decode => stages.reverse

/-- A stage that a failure of the chain leaves. -/
def Stage.abandon (s : Stage) : Stage := { s with engine := s.engine.fail.1 }

def abandon (stages : List Stage) : List Stage := stages.map Stage.abandon

/-- Starts the stages one by one, up to the first failure. -/
def startStages (direction : Direction) :
    List Stage → CryptoContext → CryptoContext × List Stage × Option Error
  | [], ctx => (ctx, [], none)
  | stage :: stages, ctx =>
    let parms := match direction with
      | .encode => none
      | .decode => stage.parms
    let (ctx, engine, reply) := stage.engine.start direction .buffer parms ctx
    match reply.error? with
    | some e => (ctx, { stage with engine } :: stages, some e)
    | none =>
      let (ctx, stages, error) := startStages direction stages ctx
      (ctx, { stage with engine } :: stages, error)

/-- Hands data from stage to stage, each passing on what `work` gets out of it. -/
def relay (work : Engine → Bytes → Engine × Except Error Bytes) :
    Bytes → List Stage → List Stage × Except Error Bytes
  | data, [] => ([], .ok data)
  | data, stage :: stages =>
    match work stage.engine data with
    | (engine, .error e) => ({ stage with engine } :: stages, .error e)
    | (engine, .ok data) =>
      let (stages, result) := relay work data stages
      ({ stage with engine } :: stages, result)

/-- Feeds one block and takes out what it brings. -/
def pumpEngine (direction : Direction) (e : Engine) (data : Bytes) :
    Engine × Except Error Bytes :=
  let (e, reply) := e.block direction data
  match reply.error? with
  | some error => (e, .error error)
  | none =>
    let (e, out) := e.drain
    (e, .ok out)

/-- Feeds the last block and ends the session. -/
def finishEngine (direction : Direction) (e : Engine) (data : Bytes) :
    Engine × Except Error Bytes :=
  let (e, reply) := e.block direction data
  match reply.error? with
  | some error => (e, .error error)
  | none =>
    let (e, reply) := e.finish direction
    (e, reply.output)

/-- Fails every stage and lets go of the sink. -/
def breakOff (stages : List Stage) (error : Error) (sink : Option Sink) : Chain × Reply :=
  (⟨abandon stages, .failed⟩, .broken error sink)

def start (c : Chain) (direction : Direction) (sink : Sink) (ctx : CryptoContext) :
    CryptoContext × Chain × Reply :=
  if c.phase.isActive then (ctx, c, .refused (.usage .chainBegin))
  else
    let (ctx, stages, error) := startStages direction (inOrder direction c.stages) ctx
    let stages := inOrder direction stages
    match error with
    | some e => (ctx, breakOff stages e sink)
    | none => (ctx, ⟨stages, .active direction sink⟩, .done)

def beginEncode (c : Chain) (sink : Sink) (ctx : CryptoContext) :
    CryptoContext × Chain × Reply :=
  c.start .encode sink ctx

def beginDecode (c : Chain) (sink : Sink) (ctx : CryptoContext) :
    CryptoContext × Chain × Reply :=
  c.start .decode sink ctx

def refuse (c : Chain) (call : Call) : Chain × Reply :=
  (c, .refused (.usage (.chainCall call c.phase)))

def block (c : Chain) (direction : Direction) (data : Bytes) : Chain × Reply :=
  if c.phase = direction.phase then
    let (stages, result) := relay (pumpEngine direction) data (inOrder direction c.stages)
    let stages := inOrder direction stages
    match result, c.session.sink? with
    | .error e, sink => breakOff stages e sink
    | .ok _, none => breakOff stages (.usage .chainUnbound) none
    | .ok out, some sink =>
      match sink.put out with
      | (sink, .error e) => breakOff stages e sink
      | (sink, .ok ()) => (⟨stages, ⟨c.phase, sink⟩⟩, .done)
  else c.refuse (.block direction)

def encodeBlock (c : Chain) (data : Bytes) : Chain × Reply := c.block .encode data

def decodeBlock (c : Chain) (data : Bytes) : Chain × Reply := c.block .decode data

/-- Ends the stages one by one, flushes the sink and hands it back. -/
def finish (c : Chain) (direction : Direction) : Chain × Reply :=
  if c.phase = direction.phase then
    let (stages, result) := relay (finishEngine direction) [] (inOrder direction c.stages)
    let stages := inOrder direction stages
    match result, c.session.sink? with
    | .error e, sink => breakOff stages e sink
    | .ok _, none => breakOff stages (.usage .chainUnbound) none
    | .ok out, some sink =>
      match sink.put out with
      | (sink, .error e) => breakOff stages e sink
      | (sink, .ok ()) =>
        match sink.flush with
        | (sink, .error e) => breakOff stages e sink
        | (sink, .ok ()) => (⟨stages, .idle⟩, .returned sink)
  else c.refuse (.finish direction)

def endEncode (c : Chain) : Chain × Reply := c.finish .encode

def endDecode (c : Chain) : Chain × Reply := c.finish .decode

/-- Gives up an open session on every stage. -/
def fail (c : Chain) : Chain × Reply :=
  if c.phase.isActive then
    match c.session.sink? with
    | none => (⟨abandon c.stages, .failed⟩, .refused (.usage .chainUnbound))
    | some sink => (⟨abandon c.stages, .failed⟩, .returned sink)
  else c.refuse .fail

/-- A whole session on one block, as far as it goes. -/
def oneShot (c : Chain) (direction : Direction) (sink : Sink) (data : Bytes)
    (ctx : CryptoContext) : CryptoContext × Chain × Reply :=
  match c.start direction sink ctx with
  | (ctx, c, .done) =>
    match c.block direction data with
    | (c, .done) => (ctx, c.finish direction)
    | outcome => (ctx, outcome)
  | outcome => outcome

def encodeTo (c : Chain) (sink : Sink) (data : Bytes) (ctx : CryptoContext) :
    CryptoContext × Chain × Reply :=
  c.oneShot .encode sink data ctx

def decodeTo (c : Chain) (sink : Sink) (data : Bytes) (ctx : CryptoContext) :
    CryptoContext × Chain × Reply :=
  c.oneShot .decode sink data ctx

end Chain
end PdfStream
