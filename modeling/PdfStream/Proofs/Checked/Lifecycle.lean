import PdfStream.Proofs.Chain.Invariant
import PdfStream.Proofs.Checked.Codec

/-!
Engines and chains over checked codecs. The lifecycle calls a codec only within its bounds: whatever
has been called before, no call comes to an operation that is out of range.
-/
namespace PdfStream
namespace Engine

def start? (e : Engine) (direction : Direction) (sink : Sink) (parms : Option DecodeParms)
    (ctx : CryptoContext) : Option (CryptoContext × Engine × Reply) :=
  if e.phase.isActive then some (ctx, e.refuse .begin)
  else if !e.codec.supports direction then
    some (ctx, e, .refused (.configuration (.unsupportedDirection e.kind direction)))
  else
    (e.codec.start? direction ctx parms).map fun (ctx, step) =>
      (ctx, { e with session := .active direction sink }.deliver false step)

def block? (e : Engine) (direction : Direction) (data : Bytes) : Option (Engine × Reply) :=
  if e.phase = direction.phase then (e.codec.block? direction data).map (e.deliver false)
  else some (e.refuse (.block direction))

def finish? (e : Engine) (direction : Direction) : Option (Engine × Reply) :=
  if e.phase = direction.phase then
    (e.codec.finish? direction).map fun step =>
      match e.deliver true step with
      | (e, .done) =>
        match e.session.sink? with
        | none => (e, e.unbound)
        | some sink => ({ e with session := .idle }, .returned sink)
      | outcome => outcome
  else some (e.refuse (.finish direction))

def oneShot? (e : Engine) (direction : Direction) (sink : Sink) (parms : Option DecodeParms)
    (data : Bytes) (ctx : CryptoContext) : Option (CryptoContext × Engine × Reply) :=
  e.start? direction sink parms ctx >>= fun
    | (ctx, e, .done) =>
      e.block? direction data >>= fun
        | (e, .done) => (e.finish? direction).map (ctx, ·)
        | outcome => some (ctx, outcome)
    | outcome => some outcome

end Engine

/-- A call with every operation of the codec checked. -/
def EngineAction.perform? (ctx : CryptoContext) (e : Engine) :
    EngineAction → Option (CryptoContext × Engine × Reply)
  | .start direction sink parms => e.start? direction sink parms ctx
  | .block direction data => (e.block? direction data).map (ctx, ·)
  | .finish direction => (e.finish? direction).map (ctx, ·)
  | .oneShot direction sink parms data => e.oneShot? direction sink parms data ctx
  | .fail => some (ctx, e.fail)

namespace Chain

def startStages? (direction : Direction) :
    List Stage → CryptoContext → Option (CryptoContext × List Stage × Option Error)
  | [], ctx => some (ctx, [], none)
  | stage :: stages, ctx =>
    stage.engine.start? direction .buffer (stage.parmsFor direction) ctx >>= fun
      (ctx, engine, reply) =>
        match reply.error? with
        | some e => some (ctx, { stage with engine } :: stages, some e)
        | none =>
          (startStages? direction stages ctx).map fun (ctx, stages, error) =>
            (ctx, { stage with engine } :: stages, error)

def relay? (work : Engine → Bytes → Option (Engine × Except Error Bytes)) :
    Bytes → List Stage → Option (List Stage × Except Error Bytes)
  | data, [] => some ([], .ok data)
  | data, stage :: stages =>
    work stage.engine data >>= fun
      | (engine, .error e) => some ({ stage with engine } :: stages, .error e)
      | (engine, .ok data) =>
        (relay? work data stages).map fun (stages, result) =>
          ({ stage with engine } :: stages, result)

def pumpEngine? (direction : Direction) (e : Engine) (data : Bytes) :
    Option (Engine × Except Error Bytes) :=
  (e.block? direction data).map fun (e, reply) =>
    match reply.error? with
    | some error => (e, .error error)
    | none =>
      let (e, out) := e.drain
      (e, .ok out)

def finishEngine? (direction : Direction) (e : Engine) (data : Bytes) :
    Option (Engine × Except Error Bytes) :=
  e.block? direction data >>= fun (e, reply) =>
    match reply.error? with
    | some error => some (e, .error error)
    | none => (e.finish? direction).map fun (e, reply) => (e, reply.output)

def start? (c : Chain) (direction : Direction) (sink : Sink) (ctx : CryptoContext) :
    Option (CryptoContext × Chain × Reply) :=
  if c.phase.isActive then some (ctx, c, .refused (.usage .chainBegin))
  else
    (startStages? direction (inOrder direction c.stages) ctx).map fun (ctx, stages, error) =>
      let stages := inOrder direction stages
      match error with
      | some e => (ctx, breakOff stages e sink)
      | none => (ctx, ⟨stages, .active direction sink⟩, .done)

def block? (c : Chain) (direction : Direction) (data : Bytes) : Option (Chain × Reply) :=
  if c.phase = direction.phase then
    (relay? (pumpEngine? direction) data (inOrder direction c.stages)).map fun (stages, result) =>
      let stages := inOrder direction stages
      match result, c.session.sink? with
      | .error e, sink => breakOff stages e sink
      | .ok _, none => breakOff stages (.usage .chainUnbound) none
      | .ok out, some sink =>
        match sink.put out with
        | (sink, .error e) => breakOff stages e sink
        | (sink, .ok ()) => (⟨stages, ⟨c.phase, sink⟩⟩, .done)
  else some (c.refuse (.block direction))

def finish? (c : Chain) (direction : Direction) : Option (Chain × Reply) :=
  if c.phase = direction.phase then
    (relay? (finishEngine? direction) [] (inOrder direction c.stages)).map fun (stages, result) =>
      let stages := inOrder direction stages
      match result, c.session.sink? with
      | .error e, sink => breakOff stages e sink
      | .ok _, none => breakOff stages (.usage .chainUnbound) none
      | .ok out, some sink =>
        match sink.put out with
        | (sink, .error e) => breakOff stages e sink
        | (sink, .ok ()) =>
          match sink.flush with
          | (sink, .error e) => breakOff stages e sink
          | (sink, .ok ()) => (⟨stages, .idle⟩, .returned sink)
  else some (c.refuse (.finish direction))

def oneShot? (c : Chain) (direction : Direction) (sink : Sink) (data : Bytes)
    (ctx : CryptoContext) : Option (CryptoContext × Chain × Reply) :=
  c.start? direction sink ctx >>= fun
    | (ctx, c, .done) =>
      c.block? direction data >>= fun
        | (c, .done) => (c.finish? direction).map (ctx, ·)
        | outcome => some (ctx, outcome)
    | outcome => some outcome

end Chain

/-- A call with every operation of the codecs checked. -/
def ChainAction.perform? (ctx : CryptoContext) (c : Chain) :
    ChainAction → Option (CryptoContext × Chain × Reply)
  | .start direction sink => c.start? direction sink ctx
  | .block direction data => (c.block? direction data).map (ctx, ·)
  | .finish direction => (c.finish? direction).map (ctx, ·)
  | .oneShot direction sink data => c.oneShot? direction sink data ctx
  | .fail => some (ctx, c.fail)

namespace Engine
variable {e : Engine}

theorem start?_eq (e : Engine) (direction : Direction) (sink : Sink) (parms : Option DecodeParms)
    (ctx : CryptoContext) :
    e.start? direction sink parms ctx = some (e.start direction sink parms ctx) := by
  unfold start? start
  split_ifs
  · rfl
  · rfl
  · rw [Codec.start?_eq, Option.map_some]

theorem Holds.block?_eq (h : e.Holds Codec.InBounds) (direction : Direction) (data : Bytes) :
    e.block? direction data = some (e.block direction data) := by
  unfold Engine.block? block
  split
  next hphase => rw [(Codec.inRange_block (h.codec direction hphase) data).same, Option.map_some]
  next => rfl

theorem Holds.finish?_eq (h : e.Holds Codec.InBounds) (direction : Direction) :
    e.finish? direction = some (e.finish direction) := by
  unfold Engine.finish? finish
  split
  next hphase =>
    have hcodec := (Codec.inRange_finish (h.codec direction hphase)).same
    exact congrArg (Option.map _) hcodec
  next => rfl

/-- Each of the three calls of a one-shot call finds the engine as a call of its own would. -/
theorem Holds.oneShot?_eq (h : e.Holds Codec.InBounds) (direction : Direction) (sink : Sink)
    (parms : Option DecodeParms) (data : Bytes) (ctx : CryptoContext) :
    e.oneShot? direction sink parms data ctx =
      some (e.oneShot direction sink parms data ctx) := by
  have hstart := h.perform Codec.isInvariant_inBounds ctx (.start direction sink parms)
  unfold Engine.oneShot? oneShot
  rw [start?_eq, Option.bind_eq_bind, Option.bind_some]
  simp only [EngineAction.perform] at hstart
  revert hstart
  rcases e.start direction sink parms ctx with ⟨ctx', e₁, reply⟩
  intro hstart
  cases reply with
  | done =>
    have hblock := hstart.perform Codec.isInvariant_inBounds ctx' (.block direction data)
    simp only [EngineAction.perform] at hblock
    dsimp only
    rw [hstart.block?_eq, Option.bind_eq_bind, Option.bind_some]
    revert hblock
    rcases e₁.block direction data with ⟨e₂, reply⟩
    intro hblock
    cases reply with
    | done => exact congrArg (Option.map (ctx', ·)) (hblock.finish?_eq direction)
    | returned | refused | broken => rfl
  | returned | refused | broken => rfl

theorem Holds.perform?_eq (h : e.Holds Codec.InBounds) (ctx : CryptoContext) (a : EngineAction) :
    a.perform? ctx e = some (a.perform ctx e) := by
  cases a with
  | start direction sink parms => exact e.start?_eq direction sink parms ctx
  | block direction data => exact congrArg (Option.map (ctx, ·)) (h.block?_eq direction data)
  | finish direction => exact congrArg (Option.map (ctx, ·)) (h.finish?_eq direction)
  | oneShot direction sink parms data => exact h.oneShot?_eq direction sink parms data ctx
  | fail => rfl

theorem Holds.pumpEngine?_eq (h : e.Holds Codec.InBounds) (direction : Direction) (data : Bytes) :
    Chain.pumpEngine? direction e data = some (Chain.pumpEngine direction e data) := by
  unfold Chain.pumpEngine? Chain.pumpEngine
  exact congrArg (Option.map _) (h.block?_eq direction data)

theorem Holds.finishEngine?_eq (h : e.Holds Codec.InBounds) (direction : Direction) (data : Bytes) :
    Chain.finishEngine? direction e data = some (Chain.finishEngine direction e data) := by
  have hblock := h.perform Codec.isInvariant_inBounds {} (.block direction data)
  simp only [EngineAction.perform] at hblock
  unfold Chain.finishEngine? Chain.finishEngine
  rw [h.block?_eq, Option.bind_eq_bind, Option.bind_some]
  dsimp only
  cases (e.block direction data).2.error? with
  | some error => rfl
  | none => exact congrArg (Option.map _) (hblock.finish?_eq direction)

end Engine

namespace Chain
variable {stages : List Stage} {c : Chain}

theorem startStages?_eq (direction : Direction) (stages : List Stage) (ctx : CryptoContext) :
    startStages? direction stages ctx = some (startStages direction stages ctx) := by
  induction stages generalizing ctx with
  | nil => rfl
  | cons s stages ih =>
    rw [startStages?, Engine.start?_eq, startStages_cons, Option.bind_eq_bind, Option.bind_some]
    rcases s.engine.start direction .buffer (s.parmsFor direction) ctx with ⟨ctx', engine, reply⟩
    cases herror : reply.error? with
    | some e => simp only [herror]
    | none => simp only [herror, ih, Option.map_some]

theorem relay?_eq {work : Engine → Bytes → Engine × Except Error Bytes}
    {work? : Engine → Bytes → Option (Engine × Except Error Bytes)}
    (hwork : ∀ {e : Engine}, e.Holds Codec.InBounds → ∀ data, work? e data = some (work e data))
    (h : Hold Codec.InBounds stages) (data : Bytes) :
    relay? work? data stages = some (relay work data stages) := by
  induction stages generalizing data with
  | nil => rfl
  | cons s stages ih =>
    obtain ⟨hs, hrest⟩ := List.forall_mem_cons.1 h
    rw [relay?, relay, hwork hs, Option.bind_eq_bind, Option.bind_some]
    rcases work s.engine data with ⟨engine, e | out⟩
    · rfl
    · dsimp only
      rw [ih hrest, Option.map_some]

theorem start?_eq (c : Chain) (direction : Direction) (sink : Sink) (ctx : CryptoContext) :
    c.start? direction sink ctx = some (c.start direction sink ctx) := by
  unfold start? start
  split
  · rfl
  · exact congrArg (Option.map _) (startStages?_eq direction (inOrder direction c.stages) ctx)

theorem block?_eq (h : Hold Codec.InBounds c.stages) (direction : Direction) (data : Bytes) :
    c.block? direction data = some (c.block direction data) := by
  have hrelay := relay?_eq (fun he data => he.pumpEngine?_eq direction data)
    ((hold_inOrder direction).2 h) data
  unfold block? block
  split
  · exact congrArg (Option.map _) hrelay
  · rfl

theorem finish?_eq (h : Hold Codec.InBounds c.stages) (direction : Direction) :
    c.finish? direction = some (c.finish direction) := by
  have hrelay := relay?_eq (fun he data => he.finishEngine?_eq direction data)
    ((hold_inOrder direction).2 h) []
  unfold finish? finish
  split
  · exact congrArg (Option.map _) hrelay
  · rfl

theorem oneShot?_eq (h : Hold Codec.InBounds c.stages) (direction : Direction) (sink : Sink)
    (data : Bytes) (ctx : CryptoContext) :
    c.oneShot? direction sink data ctx = some (c.oneShot direction sink data ctx) := by
  have hstart := hold_start Codec.isInvariant_inBounds h direction sink ctx
  unfold oneShot? oneShot
  rw [start?_eq, Option.bind_eq_bind, Option.bind_some]
  revert hstart
  rcases c.start direction sink ctx with ⟨ctx', c₁, reply⟩
  intro hstart
  cases reply with
  | done =>
    have hblock := hold_block Codec.isInvariant_inBounds hstart direction data
    dsimp only at hblock ⊢
    rw [block?_eq hstart, Option.bind_eq_bind, Option.bind_some]
    revert hblock
    rcases c₁.block direction data with ⟨c₂, reply⟩
    intro hblock
    cases reply with
    | done => exact congrArg (Option.map (ctx', ·)) (finish?_eq hblock direction)
    | returned | refused | broken => rfl
  | returned | refused | broken => rfl

theorem perform?_eq (h : Hold Codec.InBounds c.stages) (ctx : CryptoContext) (a : ChainAction) :
    a.perform? ctx c = some (a.perform ctx c) := by
  cases a with
  | start direction sink => exact c.start?_eq direction sink ctx
  | block direction data => exact congrArg (Option.map (ctx, ·)) (block?_eq h direction data)
  | finish direction => exact congrArg (Option.map (ctx, ·)) (finish?_eq h direction)
  | oneShot direction sink data => exact oneShot?_eq h direction sink data ctx
  | fail => rfl

end Chain

/-- After any calls, in any order and under any crypto contexts: the codec of an open session is
within its bounds, and whatever call comes next, no operation of a codec is out of range. For a
chain this holds of every stage. -/
theorem calls_never_out_of_range :
    (∀ (codec : Codec) (e : Engine), Engine.Reachable codec e →
      (∀ direction : Direction, e.phase = direction.phase → e.codec.InBounds direction) ∧
      ∀ (ctx : CryptoContext) (a : EngineAction), a.perform? ctx e = some (a.perform ctx e)) ∧
    ∀ c : Chain, Chain.Occurs c →
      (∀ s ∈ c.stages, ∀ direction : Direction, s.engine.phase = direction.phase →
        s.engine.codec.InBounds direction) ∧
      ∀ (ctx : CryptoContext) (a : ChainAction), a.perform? ctx c = some (a.perform ctx c) := by
  constructor
  · intro codec e h
    have hholds := h.holds Codec.isInvariant_inBounds
    exact ⟨hholds.codec, hholds.perform?_eq⟩
  · intro c h
    have hhold := h.hold Codec.isInvariant_inBounds
    exact ⟨fun s hs => (hhold s hs).codec, Chain.perform?_eq hhold⟩

/-- Five digits of a group too large for four bytes stay with the codec, and a sixth would be out of
range. But the next session begins with an empty group again, as do the sessions of a chain. -/
theorem calls_never_out_of_range_overflow :
    let begun := ((EngineAction.start .decode .buffer none).perform {} ⟨.ascii85 {}, .idle⟩).2.1
    let overflown := ((EngineAction.block .decode (List.replicate 5 0x75)).perform {} begun).2.1
    let again := ((EngineAction.start .encode .buffer none).perform {} overflown).2.1
    let chain := ((ChainAction.start .encode .buffer).perform {}
      (Chain.ofSetup [(.ascii85 {}, none), (.runLength {}, none)])).2.1
    overflown = ⟨.ascii85 ⟨List.replicate 5 84, .body⟩, .failed⟩ ∧
      overflown.codec.block? .decode [0x75] = none ∧
      again.phase = Direction.encode.phase ∧ again.codec.InBounds .encode ∧
      (∀ (ctx : CryptoContext) (a : EngineAction),
        a.perform? ctx again = some (a.perform ctx again)) ∧
      chain.phase = Direction.encode.phase ∧
      ∀ s ∈ chain.stages, s.engine.codec.InBounds .encode := by
  intro begun overflown again chain
  have hbegun : Engine.Reachable (.ascii85 {}) begun := .call .new {} _
  have hagain : Engine.Reachable (.ascii85 {}) again := .call (.call hbegun {} _) {} _
  have hchain : Chain.Occurs chain := .call (.new _) {} _
  have hphase : ∀ s ∈ chain.stages, s.engine.phase = Direction.encode.phase := by decide
  obtain ⟨hengines, hchains⟩ := calls_never_out_of_range
  obtain ⟨hbounds, hcalls⟩ := hengines _ again hagain
  refine ⟨rfl, rfl, rfl, hbounds .encode rfl, hcalls, rfl, ?_⟩
  intro s hs
  exact (hchains chain hchain).1 s hs .encode (hphase s hs)

end PdfStream
