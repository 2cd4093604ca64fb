import PdfStream.Proofs.Chain.Restart
import PdfStream.Proofs.Chain.Workers

/-!
The lifecycle of a chain over arbitrary histories of calls. The engines of the stages are started,
fed, ended and given up together with the chain, so that none of them is ever asked for what its
phase does not allow. What a call comes to is therefore what the codecs and the sink alone make of
it, with no lifecycle at all.
-/
namespace PdfStream

namespace ChainAction

/-- What workers and sink make of a call. -/
def work (ctx : CryptoContext) (workers : List Worker) (sink : Sink) : ChainAction → Work
  | .start direction _ => .start direction ctx workers sink
  | .block direction data => .block direction data ctx workers sink
  | .finish direction => .finish direction ctx workers sink
  | .oneShot direction _ data =>
    ((Work.start direction ctx workers sink).andThen (.block direction data)).andThen
      (.finish direction)
  | .fail => ⟨ctx, workers.map ({ · with ready := [] }), sink, .ok ()⟩

/-- The same call on a single engine. -/
def single : ChainAction → EngineAction
  | .start direction sink => .start direction sink none
  | .block direction data => .block direction data
  | .finish direction => .finish direction
  | .oneShot direction sink data => .oneShot direction sink none data
  | .fail => .fail

/-- What the call answers if the phase does not allow it. -/
def refusal (phase : Phase) : ChainAction → UsageFault
  | .start _ _ | .oneShot _ _ _ => .chainBegin
  | .block direction _ => .chainCall (.block direction) phase
  | .finish direction => .chainCall (.finish direction) phase
  | .fail => .chainCall .fail phase

end ChainAction

namespace Chain
variable {direction : Direction} {stages : List Stage}

theorem map_worker_inOrder (direction : Direction) (stages : List Stage) :
    (inOrder direction stages).map Stage.worker =
      Worker.inOrder direction (stages.map Stage.worker) := by
  cases direction with
  | encode => rfl
  | decode => exact List.map_reverse

/-- The session has failed, the sink is gone, and no stage has a session left. -/
def IsBroken (c : Chain) : Prop :=
  c.session = .failed ∧ ∀ s ∈ c.stages, s.engine.phase.isActive = false

theorem isBroken_breakOff (stages : List Stage) (error : Error) (sink : Option Sink) :
    (breakOff stages error sink).1.IsBroken := ⟨rfl, (atRest_breakOff stages error sink).2⟩

/-- A chain in a session: each stage has one of its own, in the same direction. -/
def IsRunning (direction : Direction) (sink : Sink) (c : Chain) : Prop :=
  c.session = .active direction sink ∧ ∀ s ∈ c.stages, s.IsBusy direction

/-- A chain at rest is set going as its workers are, and an error on the way breaks it off. -/
theorem start_work {c : Chain} (h : c.AtRest) (direction : Direction) (sink : Sink)
    (ctx : CryptoContext) {k : Work} (hk : Work.start direction ctx c.workers sink = k) :
    (∃ c' e, k.result = .error e ∧ c.start direction sink ctx = (k.ctx, c', .broken e k.sink) ∧
      c'.IsBroken) ∨
    ∃ c', k.result = .ok () ∧ c.start direction sink ctx = (k.ctx, c', .done) ∧
      c'.IsRunning direction k.sink ∧ c'.workers = k.workers := by
  have hstages : ∀ s ∈ inOrder direction c.stages, s.engine.phase.isActive = false :=
    fun s hs => h.2 s (mem_inOrder.1 hs)
  simp only [Work.start, workers, ← map_worker_inOrder] at hk
  simp only [start, h.1, Bool.false_eq_true, ↓reduceIte]
  rcases startStages_follows hstages direction ctx with ⟨ctx', stages', workers, e, hstart, hall⟩ |
    ⟨ctx', stages', hstart, hbusy, hall⟩ <;> rw [hall] at hk <;> subst hk <;> rw [hstart]
  · exact .inl ⟨_, e, rfl, rfl, isBroken_breakOff (inOrder direction stages') e sink⟩
  · refine .inr ⟨_, rfl, rfl, ⟨rfl, ?_⟩, map_worker_inOrder direction stages'⟩
    intro s hs
    exact hbusy s (mem_inOrder.1 hs)

section
variable {c : Chain} {sink : Sink}

/-- A running chain hands on a block as its workers do, and an error on the way breaks it off. -/
theorem block_work (h : c.IsRunning direction sink) (data : Bytes) (ctx : CryptoContext) {k : Work}
    (hk : Work.block direction data ctx c.workers sink = k) :
    k.ctx = ctx ∧
    ((∃ c' e, k.result = .error e ∧ c.block direction data = (c', .broken e k.sink) ∧
      c'.IsBroken) ∨
    ∃ c', k.result = .ok () ∧ c.block direction data = (c', .done) ∧
      c'.IsRunning direction k.sink ∧ c'.workers = k.workers) := by
  obtain ⟨stages, session⟩ := c
  obtain ⟨rfl, hbusy⟩ := h
  have hstages : ∀ s ∈ inOrder direction stages, s.IsBusy direction :=
    fun s hs => hbusy s (mem_inOrder.1 hs)
  simp only [Work.block, Work.send, workers, ← map_worker_inOrder] at hk
  simp only [block, phase, Session.active, ↓reduceIte]
  rcases relay_follows (pumpEngine_follows direction) hstages data with
    ⟨stages', workers, e, hrelay, hpass⟩ | ⟨stages', out, hrelay, hall, hpass⟩ <;>
    rw [hpass] at hk <;> rw [hrelay]
  · subst hk
    exact ⟨rfl, .inl ⟨_, e, rfl, rfl, isBroken_breakOff (inOrder direction stages') e sink⟩⟩
  · dsimp only
    rcases hput : sink.put out with ⟨t, e | ⟨⟩⟩ <;> simp only [Sink.receive, hput] at hk <;> subst hk
    · exact ⟨rfl, .inl ⟨_, e, rfl, rfl, isBroken_breakOff (inOrder direction stages') e t⟩⟩
    · refine ⟨rfl, .inr ⟨_, rfl, rfl, ⟨rfl, ?_⟩, map_worker_inOrder direction stages'⟩⟩
      intro s hs
      exact hall s (mem_inOrder.1 hs)

/-- A running chain ends as its workers do, and goes idle. An error on the way breaks it off. -/
theorem finish_work (h : c.IsRunning direction sink) (ctx : CryptoContext) {k : Work}
    (hk : Work.finish direction ctx c.workers sink = k) :
    k.ctx = ctx ∧
    ((∃ c' e, k.result = .error e ∧ c.finish direction = (c', .broken e k.sink) ∧ c'.IsBroken) ∨
    ∃ c', k.result = .ok () ∧ c.finish direction = (c', .returned k.sink) ∧ c'.session = .idle ∧
      (∀ s ∈ c'.stages, s.engine.phase.isActive = false) ∧ c'.workers = k.workers) := by
  obtain ⟨stages, session⟩ := c
  obtain ⟨rfl, hbusy⟩ := h
  have hstages : ∀ s ∈ inOrder direction stages, s.IsBusy direction :=
    fun s hs => hbusy s (mem_inOrder.1 hs)
  simp only [Work.finish, Work.send, workers, ← map_worker_inOrder] at hk
  simp only [finish, phase, Session.active, ↓reduceIte]
  rcases relay_follows (finishEngine_follows direction) hstages [] with
    ⟨stages', workers, e, hrelay, hpass⟩ | ⟨stages', out, hrelay, hall, hpass⟩ <;>
    rw [hpass] at hk <;> rw [hrelay]
  · subst hk
    exact ⟨rfl, .inl ⟨_, e, rfl, rfl, isBroken_breakOff (inOrder direction stages') e sink⟩⟩
  · dsimp only
    rcases hput : sink.put out with ⟨t, e | ⟨⟩⟩ <;>
      simp only [Sink.receive, hput, ↓reduceIte] at hk
    · subst hk
      exact ⟨rfl, .inl ⟨_, e, rfl, rfl, isBroken_breakOff (inOrder direction stages') e t⟩⟩
    dsimp only
    rcases hflush : t.flush with ⟨u, e | ⟨⟩⟩ <;> rw [hflush] at hk <;> subst hk
    · exact ⟨rfl, .inl ⟨_, e, rfl, rfl, isBroken_breakOff (inOrder direction stages') e u⟩⟩
    · refine ⟨rfl, .inr ⟨_, rfl, rfl, rfl, ?_, map_worker_inOrder direction stages'⟩⟩
      intro s hs
      rw [Engine.phase, hall s (mem_inOrder.1 hs)]
      rfl

end

/-- The stages stand where the chain stands. -/
inductive InStep (c : Chain) : Prop
  | running (direction : Direction) (sink : Sink) (h : c.IsRunning direction sink)
  | resting (ended : c.session = .idle ∨ c.session = .failed)
    (quiet : ∀ s ∈ c.stages, s.engine.phase.isActive = false)

section
variable {c : Chain} {sink : Sink}

theorem IsBroken.inStep (h : c.IsBroken) : c.InStep := .resting (.inr h.1) h.2

theorem IsRunning.phase (h : c.IsRunning direction sink) : c.phase = direction.phase :=
  congrArg Session.phase h.1

theorem InStep.running_of_phase (h : c.InStep) (hp : c.phase = direction.phase) :
    ∃ sink, c.IsRunning direction sink := by
  cases h with
  | running direction' sink h =>
    obtain rfl := Direction.eq_of_phase_eq (h.phase.symm.trans hp)
    exact ⟨sink, h⟩
  | resting ended quiet =>
    have hrest : c.phase.isActive = false := by
      rcases ended with hs | hs <;> rw [Chain.phase, hs] <;> rfl
    exact absurd hp (direction.phase_ne hrest)

theorem InStep.atRest (h : c.InStep) (hp : c.phase = .idle ∨ c.phase = .failed) : c.AtRest := by
  have hrest := Phase.not_isActive_iff.2 hp
  cases h with
  | running direction sink h =>
    rw [h.phase, direction.isActive_phase] at hrest
    cases hrest
  | resting ended quiet => exact ⟨hrest, quiet⟩

/-- Given up, a chain has lost what its stages had not handed on, and gives its sink back. -/
theorem fail_work (h : c.IsRunning direction sink) :
    ∃ c', c.fail = (c', .returned sink) ∧ c'.IsBroken ∧
      c'.workers = c.workers.map ({ · with ready := [] }) := by
  obtain ⟨stages, session⟩ := c
  obtain ⟨rfl, hbusy⟩ := h
  have hactive : (⟨stages, .active direction sink⟩ : Chain).phase.isActive = true :=
    direction.isActive_phase
  refine ⟨⟨abandon stages, .failed⟩, ?_, isBroken_breakOff stages (.usage .chainUnbound) none, ?_⟩
  · simp only [fail, hactive, ↓reduceIte]
    rfl
  · simp only [workers, abandon, List.map_map]
    apply List.map_congr_left
    intro s hs
    obtain ⟨t, hsession, -⟩ := hbusy s hs
    obtain ⟨⟨codec, session⟩, parms⟩ := s
    obtain rfl : session = .active direction t := hsession
    simp only [Function.comp_apply, Stage.abandon, Engine.fail_active _ _ _ {}]
    rfl

end

end Chain

namespace Work

theorem andThen_of_error {k : Work} {e : Error} (h : k.result = .error e)
    (f : CryptoContext → List Worker → Sink → Work) : k.andThen f = k := by
  simp only [andThen, h]

theorem andThen_of_ok {k : Work} (h : k.result = .ok ())
    (f : CryptoContext → List Worker → Sink → Work) :
    k.andThen f = f k.ctx k.workers k.sink := by
  simp only [andThen, h]

end Work

namespace ChainAction

/-- After the call, context, chain and answer are what workers and sink have come to. An error has
broken the session off on every stage. -/
def Realizes (a : ChainAction) (k : Work) (outcome : CryptoContext × Chain × Reply) : Prop :=
  outcome.1 = k.ctx ∧
    match k.result with
    | .ok () => outcome.2.1.session = (a.single.settled k.sink).1 ∧
        outcome.2.1.workers = k.workers ∧ outcome.2.2 = (a.single.settled k.sink).2
    | .error e => outcome.2.1.IsBroken ∧ outcome.2.2 = .broken e k.sink

section
variable {a : ChainAction} {k : Work} {outcome : CryptoContext × Chain × Reply} {c : Chain}

theorem Realizes.broken {e : Error} (hk : k.result = .error e)
    (houtcome : outcome = (k.ctx, c, .broken e k.sink)) (hc : c.IsBroken) :
    a.Realizes k outcome ∧ outcome.2.1.InStep := by
  subst houtcome
  refine ⟨⟨rfl, ?_⟩, hc.inStep⟩
  rw [hk]
  exact ⟨hc, rfl⟩

theorem Realizes.settled (hk : k.result = .ok ())
    (houtcome : outcome = (k.ctx, c, (a.single.settled k.sink).2))
    (hsession : c.session = (a.single.settled k.sink).1) (hworkers : c.workers = k.workers)
    (hc : c.InStep) : a.Realizes k outcome ∧ outcome.2.1.InStep := by
  subst houtcome
  refine ⟨⟨rfl, ?_⟩, hc⟩
  rw [hk]
  exact ⟨hsession, hworkers, rfl⟩

end

variable {c : Chain}

theorem perform_start (h : c.AtRest) (direction : Direction) (sink : Sink) (ctx : CryptoContext) :
    (start direction sink).Realizes ((start direction sink).work ctx c.workers sink)
        ((start direction sink).perform ctx c) ∧
      ((start direction sink).perform ctx c).2.1.InStep := by
  rcases Chain.start_work h direction sink ctx rfl with ⟨c', e, hk, hstart, hbroken⟩ |
    ⟨c', hk, hstart, hrunning, hworkers⟩
  · exact Realizes.broken hk hstart hbroken
  · exact Realizes.settled hk hstart hrunning.1 hworkers (.running _ _ hrunning)

theorem perform_block {direction : Direction} {sink : Sink} (h : c.IsRunning direction sink)
    (data : Bytes) (ctx : CryptoContext) :
    (block direction data).Realizes ((block direction data).work ctx c.workers sink)
        ((block direction data).perform ctx c) ∧
      ((block direction data).perform ctx c).2.1.InStep := by
  obtain ⟨hctx, ⟨c', e, hk, hblock, hbroken⟩ | ⟨c', hk, hblock, hrunning, hworkers⟩⟩ :=
    Chain.block_work h data ctx rfl
  · exact Realizes.broken hk (Prod.ext hctx.symm hblock) hbroken
  · exact Realizes.settled hk (Prod.ext hctx.symm hblock) hrunning.1 hworkers (.running _ _ hrunning)

theorem perform_finish {direction : Direction} {sink : Sink} (h : c.IsRunning direction sink)
    (ctx : CryptoContext) :
    (finish direction).Realizes ((finish direction).work ctx c.workers sink)
        ((finish direction).perform ctx c) ∧
      ((finish direction).perform ctx c).2.1.InStep := by
  obtain ⟨hctx, ⟨c', e, hk, hfinish, hbroken⟩ | ⟨c', hk, hfinish, hidle, hquiet, hworkers⟩⟩ :=
    Chain.finish_work h ctx rfl
  · exact Realizes.broken hk (Prod.ext hctx.symm hfinish) hbroken
  · exact Realizes.settled hk (Prod.ext hctx.symm hfinish) hidle hworkers (.resting (.inl hidle) hquiet)

/-- A one-shot call gets as far as its start, its block and its finish do. -/
theorem perform_oneShot (h : c.AtRest) (direction : Direction) (sink : Sink) (data : Bytes)
    (ctx : CryptoContext) :
    (oneShot direction sink data).Realizes ((oneShot direction sink data).work ctx c.workers sink)
        ((oneShot direction sink data).perform ctx c) ∧
      ((oneShot direction sink data).perform ctx c).2.1.InStep := by
  simp only [work, perform, Chain.oneShot]
  generalize hk : Work.start direction ctx c.workers sink = k
  rcases Chain.start_work h direction sink ctx hk with ⟨c', e, herror, hstart, hbroken⟩ |
    ⟨c₁, hok, hstart, hrunning, hworkers⟩
  · rw [hstart, Work.andThen_of_error herror, Work.andThen_of_error herror]
    exact Realizes.broken herror rfl hbroken
  rw [hstart, Work.andThen_of_ok hok, ← hworkers]
  dsimp only
  generalize hk₁ : Work.block direction data k.ctx c₁.workers k.sink = k₁
  obtain ⟨hctx, ⟨c', e, herror, hblock, hbroken⟩ | ⟨c₂, hok, hblock, hrunning, hworkers⟩⟩ :=
    Chain.block_work hrunning data k.ctx hk₁
  · rw [hblock, Work.andThen_of_error herror]
    exact Realizes.broken herror (by rw [hctx]) hbroken
  rw [hblock, Work.andThen_of_ok hok, ← hworkers]
  dsimp only
  generalize hk₂ : Work.finish direction k₁.ctx c₂.workers k₁.sink = k₂
  obtain ⟨hctx', ⟨c', e, herror, hfinish, hbroken⟩ | ⟨c', hok, hfinish, hidle, hquiet, hworkers⟩⟩ :=
    Chain.finish_work hrunning k₁.ctx hk₂
  · exact Realizes.broken herror (by rw [hfinish, hctx', hctx]) hbroken
  · exact Realizes.settled hok (by rw [hfinish, hctx', hctx]; rfl) hidle hworkers
      (.resting (.inl hidle) hquiet)

theorem perform_fail {direction : Direction} {sink : Sink} (h : c.IsRunning direction sink)
    (ctx : CryptoContext) : fail.Realizes (fail.work ctx c.workers sink) (fail.perform ctx c) ∧
      (fail.perform ctx c).2.1.InStep := by
  obtain ⟨c', hfail, hbroken, hworkers⟩ := Chain.fail_work h
  exact Realizes.settled rfl (Prod.ext rfl hfail) hbroken.1 hworkers hbroken.inStep

/-- An allowed call finds its sink, and comes to what workers and sink make of it. -/
theorem perform_of_allowed {a : ChainAction} (h : c.InStep) (ha : a.single.Allowed c.phase)
    (ctx : CryptoContext) : ∃ sink, a.single.target c.session = some sink ∧
      a.Realizes (a.work ctx c.workers sink) (a.perform ctx c) ∧ (a.perform ctx c).2.1.InStep := by
  cases a with
  | start direction sink => exact ⟨sink, rfl, perform_start (h.atRest ha) direction sink ctx⟩
  | block direction data =>
    obtain ⟨sink, hrunning⟩ := h.running_of_phase ha
    exact ⟨sink, congrArg Session.sink? hrunning.1, perform_block hrunning data ctx⟩
  | finish direction =>
    obtain ⟨sink, hrunning⟩ := h.running_of_phase ha
    exact ⟨sink, congrArg Session.sink? hrunning.1, perform_finish hrunning ctx⟩
  | oneShot direction sink data =>
    exact ⟨sink, rfl, perform_oneShot (h.atRest ha) direction sink data ctx⟩
  | fail =>
    obtain ⟨direction, hp⟩ : ∃ direction : Direction, c.phase = direction.phase := by
      rcases ha with hp | hp
      · exact ⟨.encode, hp⟩
      · exact ⟨.decode, hp⟩
    obtain ⟨sink, hrunning⟩ := h.running_of_phase hp
    exact ⟨sink, congrArg Session.sink? hrunning.1, perform_fail hrunning ctx⟩

/-- A call that the phase does not allow changes neither context nor chain. -/
theorem perform_of_not_allowed {a : ChainAction} (ha : ¬a.single.Allowed c.phase)
    (ctx : CryptoContext) :
    a.perform ctx c = (ctx, c, .refused (.usage (a.refusal c.phase))) := by
  cases a with
  | start direction sink =>
    have hp : c.phase.isActive = true := by
      rw [single, EngineAction.Allowed, ← Phase.not_isActive_iff] at ha
      exact Bool.not_eq_false _ ▸ ha
    simp only [perform, Chain.start, hp, ↓reduceIte, refusal]
  | block direction data =>
    have hp : ¬c.phase = direction.phase := ha
    simp only [perform, Chain.block, hp, ↓reduceIte, Chain.refuse, refusal]
  | finish direction =>
    have hp : ¬c.phase = direction.phase := ha
    simp only [perform, Chain.finish, hp, ↓reduceIte, Chain.refuse, refusal]
  | oneShot direction sink data =>
    have hp : c.phase.isActive = true := by
      rw [single, EngineAction.Allowed, ← Phase.not_isActive_iff] at ha
      exact Bool.not_eq_false _ ▸ ha
    simp only [perform, Chain.oneShot, Chain.start, hp, ↓reduceIte, refusal]
  | fail =>
    have hp : ¬c.phase.isActive = true := by
      rwa [single, EngineAction.Allowed, ← Phase.isActive_iff] at ha
    simp only [perform, Chain.fail, hp, Chain.refuse, refusal]
    rfl

/-- No call puts the stages out of step. -/
theorem inStep_perform (h : c.InStep) (ctx : CryptoContext) (a : ChainAction) :
    (a.perform ctx c).2.1.InStep := by
  by_cases ha : a.single.Allowed c.phase
  · obtain ⟨-, -, -, hstep⟩ := perform_of_allowed h ha ctx
    exact hstep
  · rwa [perform_of_not_allowed ha]

end ChainAction

namespace Engine

/-- The engine refuses no block of this direction, and no end after a block. -/
def Accepts (direction : Direction) (e : Engine) : Prop :=
  ∀ data error, (e.block direction data).2 ≠ .refused error ∧
    ∀ e', e.block direction data = (e', .done) → (e'.finish direction).2 ≠ .refused error

theorem finish_ne_refused (c : Codec) (direction : Direction) (sink : Sink) (error : Error) :
    ((⟨c, .active direction sink⟩ : Engine).finish direction).2 ≠ .refused error := by
  rw [finish_active c direction sink {}]
  exact EngineAction.outcome_ne_refused _ _ _ _ error

theorem accepts_active (c : Codec) (direction : Direction) (sink : Sink) :
    (⟨c, .active direction sink⟩ : Engine).Accepts direction := by
  intro data error
  rw [block_active c direction sink data {}]
  refine ⟨EngineAction.outcome_ne_refused _ _ _ _ error, ?_⟩
  intro e' hdone
  rcases hcarry : sink.carryOut false (c.block direction data) with ⟨t, e | ⟨⟩⟩ <;>
    simp only [EngineAction.outcome, EngineAction.work, hcarry] at hdone
  · cases hdone
  · obtain ⟨rfl, -⟩ := Prod.mk.inj hdone
    exact finish_ne_refused _ direction t error

theorem start_ne_refused {e : Engine} (h : e.phase.isActive = false) (direction : Direction)
    (sink : Sink) (parms : Option DecodeParms) (ctx : CryptoContext) (error : Error) :
    (e.start direction sink parms ctx).2.2 ≠ .refused error := by
  rw [start_of_inactive h]
  exact EngineAction.outcome_ne_refused _ _ _ _ error

end Engine

theorem Chain.start_ne_refused {c : Chain} (h : c.AtRest) (direction : Direction) (sink : Sink)
    (ctx : CryptoContext) (error : Error) : (c.start direction sink ctx).2.2 ≠ .refused error := by
  rcases start_work h direction sink ctx rfl with ⟨c', e, -, hstart, -⟩ | ⟨c', -, hstart, -⟩
  · rw [hstart]
    exact nofun
  · rw [hstart]
    exact nofun

theorem ChainAction.isOwn_work {sink : Sink} (h : sink.IsPlain) (a : ChainAction)
    (ctx : CryptoContext) (workers : List Worker) : (a.work ctx workers sink).IsOwn := by
  cases a with
  | start direction _ => exact Work.isOwn_start h direction ctx workers
  | block direction data => exact Work.isOwn_block h direction data ctx workers
  | finish direction => exact Work.isOwn_finish h direction ctx workers
  | oneShot direction _ data =>
    refine ((Work.isOwn_start h direction ctx workers).andThen ?_).andThen ?_
    · exact fun ctx workers sink h => Work.isOwn_block h direction data ctx workers
    · exact fun ctx workers sink h => Work.isOwn_finish h direction ctx workers
  | fail => exact ⟨h, errsOnly_ok _⟩

namespace Chain

/-- The chains that arise in use: new ones, those that got one more stage between two sessions, and
those that a call was made on. -/
inductive Arises : Chain → Prop
  | new (setup : List (Codec × Option DecodeParms)) : Arises (ofSetup setup)
  | push {c : Chain} (before : Arises c) (inactive : c.phase.isActive = false) (codec : Codec)
    (parms : Option DecodeParms) : Arises (c.push codec parms)
  | call {c : Chain} (before : Arises c) (ctx : CryptoContext) (a : ChainAction) :
    Arises (a.perform ctx c).2.1
  /-- Where a failure comes amid the work of a codec, that codec may stop anywhere. -/
  | amid {c c' : Chain} (before : Arises c) (broken : c.session = .failed)
    (same : c'.session = c.session)
    (stages : c'.stages.map (·.engine.session) = c.stages.map (·.engine.session)) : Arises c'

variable {c : Chain}

/-- By induction on the history: every call keeps stages and chain in step. -/
theorem Arises.inStep (h : Arises c) : c.InStep := by
  induction h with
  | new setup => exact .resting (.inl rfl) (atRest_ofSetup setup).2
  | @push c before inactive codec parms ih =>
    cases ih with
    | running direction sink h =>
      rw [h.phase, direction.isActive_phase] at inactive
      cases inactive
    | resting hsession quiet =>
      refine .resting hsession ?_
      intro s hs
      rcases List.mem_append.1 hs with hold | hnew
      · exact quiet s hold
      · rw [List.mem_singleton.1 hnew]
        rfl
  | call _ ctx a ih => exact ChainAction.inStep_perform ih ctx a
  | @amid c c' before broken same stages ih =>
    have hrest := ih.atRest (.inr (congrArg Session.phase broken))
    refine .resting (.inr (same.trans broken)) ?_
    intro s hs
    have hmem : s.engine.session ∈ c'.stages.map (·.engine.session) :=
      List.mem_map_of_mem hs
    rw [stages] at hmem
    obtain ⟨s', hs', hsession⟩ := List.mem_map.1 hmem
    rw [Engine.phase, ← hsession]
    exact hrest.2 s' hs'

theorem InStep.isBound (h : c.InStep) : c.session.IsBound := by
  cases h with
  | running direction sink h =>
    rw [h.1]
    exact Session.isBound_active direction sink
  | resting ended _ =>
    rcases ended with hs | hs <;> rw [hs]
    · exact Session.isBound_idle
    · exact Session.isBound_failed

theorem IsBroken.start_ne_refused (h : c.IsBroken) (direction : Direction) (sink : Sink)
    (ctx : CryptoContext) (error : Error) : (c.start direction sink ctx).2.2 ≠ .refused error :=
  Chain.start_ne_refused (h.inStep.atRest (.inr (congrArg Session.phase h.1))) direction sink ctx
    error

/-- An answer that sounds like a refusal is one that the sink gave. -/
theorem InStep.error?_of_allowed (h : c.InStep) {a : ChainAction} (ha : a.single.Allowed c.phase)
    (ctx : CryptoContext) {sink : Sink} (htarget : a.single.target c.session = some sink)
    (hplain : sink.IsPlain) {error : Error} (he : (a.perform ctx c).2.2.error? = some error) :
    ¬error.IsRefusal := by
  obtain ⟨sink', htarget', ⟨-, houtcome⟩, -⟩ := ChainAction.perform_of_allowed h ha ctx
  obtain rfl : sink' = sink := Option.some.inj (htarget'.symm.trans htarget)
  have hown := (ChainAction.isOwn_work hplain a ctx c.workers).2
  cases hk : (a.work ctx c.workers sink').result with
  | error e =>
    rw [hk] at houtcome hown
    rw [houtcome.2] at he
    cases he
    exact hown _ rfl
  | ok =>
    rw [hk] at houtcome
    rw [houtcome.2.2] at he
    cases a <;> cases he

/-- After any history a sink is bound exactly while the chain has a session. The engines of its stages
have sessions in the same direction then, and none otherwise, so that they refuse no start, block or
finish that the chain asks for. A call that the phase does not allow is refused and changes nothing.
An allowed call does what codecs and sink alone make of it, and if they have errors of their own only,
nobody is told of a lifecycle or a missing sink. The first error is the answer; after it the session
has failed, the sink is gone, no stage has a session, and a start is accepted. -/
theorem chain_lifecycle (h : Arises c) :
    (c.session.sink?.isSome ↔ c.phase = .encoding ∨ c.phase = .decoding) ∧
    (∀ direction : Direction, c.phase = direction.phase →
      ∀ s ∈ c.stages, s.engine.phase = direction.phase ∧ s.engine.Accepts direction) ∧
    (c.phase = .idle ∨ c.phase = .failed →
      ∀ s ∈ c.stages, s.engine.phase.isActive = false ∧ ∀ direction sink parms ctx error,
        (s.engine.start direction sink parms ctx).2.2 ≠ .refused error) ∧
    ∀ (ctx : CryptoContext) (a : ChainAction),
      (¬a.single.Allowed c.phase →
        a.perform ctx c = (ctx, c, .refused (.usage (a.refusal c.phase)))) ∧
      (a.single.Allowed c.phase → ∃ sink, a.single.target c.session = some sink ∧
        (sink.IsPlain → ∀ error, (a.perform ctx c).2.2.error? = some error → ¬error.IsRefusal) ∧
        let k := a.work ctx c.workers sink
        ∃ c', match k.result with
          | .ok () => a.perform ctx c = (k.ctx, c', (a.single.settled k.sink).2) ∧
              c'.session = (a.single.settled k.sink).1 ∧ c'.workers = k.workers
          | .error e => a.perform ctx c = (k.ctx, c', .broken e k.sink) ∧
              c'.session = .failed ∧ (∀ s ∈ c'.stages, s.engine.phase.isActive = false) ∧
              ∀ direction sink ctx error, (c'.start direction sink ctx).2.2 ≠ .refused error) := by
  have hstep := h.inStep
  refine ⟨hstep.isBound, ?_, ?_, ?_⟩
  · intro direction hp s hs
    obtain ⟨sink, -, hbusy⟩ := hstep.running_of_phase hp
    obtain ⟨t, hsession, -⟩ := hbusy s hs
    obtain ⟨⟨codec, session⟩, parms⟩ := s
    obtain rfl : session = .active direction t := hsession
    exact ⟨rfl, Engine.accepts_active codec direction t⟩
  · intro hp s hs
    have hquiet := (hstep.atRest hp).2 s hs
    exact ⟨hquiet, Engine.start_ne_refused hquiet⟩
  intro ctx a
  refine ⟨fun ha => ChainAction.perform_of_not_allowed ha ctx, ?_⟩
  intro ha
  obtain ⟨sink, htarget, ⟨hctx, houtcome⟩, -⟩ := ChainAction.perform_of_allowed hstep ha ctx
  refine ⟨sink, htarget, fun hplain error => hstep.error?_of_allowed ha ctx htarget hplain, ?_⟩
  refine ⟨(a.perform ctx c).2.1, ?_⟩
  cases hk : (a.work ctx c.workers sink).result with
  | ok =>
    rw [hk] at houtcome
    obtain ⟨hsession, hworkers, hreply⟩ := houtcome
    exact ⟨Prod.ext hctx (Prod.ext rfl hreply), hsession, hworkers⟩
  | error e =>
    rw [hk] at houtcome
    obtain ⟨hbroken, hreply⟩ := houtcome
    exact ⟨Prod.ext hctx (Prod.ext rfl hreply), hbroken.1, hbroken.2, hbroken.start_ne_refused⟩

theorem chain_lifecycle_malformed :
    let setup : List (Codec × Option DecodeParms) := [(.runLength {}, none), (.asciiHex {}, none)]
    let c := ((ChainAction.start .decode .buffer).perform {} (ofSetup setup)).2.1
    let a : ChainAction := .block .decode [0x30, 0x31, 0x7A]
    Arises c ∧ (∀ s ∈ c.stages, s.engine.phase = .decoding) ∧
      ∃ c', a.perform {} c = ({}, c', .broken (.decode (.hexCharacter 0x7A)) (some .buffer)) ∧
        c'.session = .failed ∧ (∀ s ∈ c'.stages, s.engine.phase.isActive = false) ∧
        ∀ direction sink ctx error, (c'.start direction sink ctx).2.2 ≠ .refused error := by
  intro setup c a
  have harises : Arises c := .call (.new setup) {} (.start .decode .buffer)
  obtain ⟨-, hactive, -, hcalls⟩ := chain_lifecycle harises
  refine ⟨harises, fun s hs => (hactive .decode rfl s hs).1, ?_⟩
  obtain ⟨sink, htarget, -, c', hc'⟩ := (hcalls {} a).2 rfl
  obtain rfl : Sink.buffer = sink := Option.some.inj htarget
  exact ⟨c', hc'⟩

end Chain
end PdfStream
