import PdfStream.Engine
import PdfStream.Proofs.Sink

/-!
The lifecycle of a filter engine over arbitrary histories of calls. A sink is bound exactly while a
session is open; a call out of place is refused and changes nothing; any other call does what codec
and sink make of it and moves the session accordingly.
-/
namespace PdfStream

/-- A call on an engine. Only decoding looks at the parameters. -/
inductive EngineAction where
  | start (direction : Direction) (sink : Sink) (parms : Option DecodeParms)
  | block (direction : Direction) (data : Bytes)
  | finish (direction : Direction)
  | oneShot (direction : Direction) (sink : Sink) (parms : Option DecodeParms) (data : Bytes)
  | fail

namespace EngineAction

def perform (ctx : CryptoContext) (e : Engine) : EngineAction → CryptoContext × Engine × Reply
  | .start direction sink parms => e.start direction sink parms ctx
  | .block direction data => (ctx, e.block direction data)
  | .finish direction => (ctx, e.finish direction)
  | .oneShot direction sink parms data => e.oneShot direction sink parms data ctx
  | .fail => (ctx, e.fail)

/-- The phases in which a call may be made. -/
def Allowed (phase : Phase) : EngineAction → Prop
  | .start _ _ _ | .oneShot _ _ _ _ => phase = .idle ∨ phase = .failed
  | .block direction _ | .finish direction => phase = direction.phase
  | .fail => phase = .encoding ∨ phase = .decoding

/-- The name that a refusal gives the call. -/
def call : EngineAction → Call
  | .start _ _ _ | .oneShot _ _ _ _ => .begin
  | .block direction _ => .block direction
  | .finish direction => .finish direction
  | .fail => .fail

/-- The sink that a call works on: its own, or the one that is bound. -/
def target (s : Session) : EngineAction → Option Sink
  | .start _ sink _ | .oneShot _ sink _ _ => sink
  | .block _ _ | .finish _ | .fail => s.sink?

/-- What codec and sink make of a call, up to the first failure of either. -/
def work (ctx : CryptoContext) (c : Codec) (sink : Sink) :
    EngineAction → Codec × Sink × Except Error Unit
  | .start direction _ parms =>
    let step := (c.start direction ctx parms).2
    (step.state, sink.carryOut false step)
  | .block direction data =>
    let step := c.block direction data
    (step.state, sink.carryOut false step)
  | .finish direction =>
    let step := c.finish direction
    (step.state, sink.carryOut true step)
  | .oneShot direction _ parms data =>
    let first := (c.start direction ctx parms).2
    match sink.carryOut false first with
    | (sink, .error e) => (first.state, sink, .error e)
    | (sink, .ok ()) =>
      let middle := first.state.block direction data
      match sink.carryOut false middle with
      | (sink, .error e) => (middle.state, sink, .error e)
      | (sink, .ok ()) =>
        let last := middle.state.finish direction
        (last.state, sink.carryOut true last)
  | .fail => (c, sink, .ok ())

/-- Where a call that went well leaves the session, and what it answers. -/
def settled (sink : Sink) : EngineAction → Session × Reply
  | .start direction _ _ | .block direction _ => (.active direction sink, .done)
  | .finish _ | .oneShot _ _ _ _ => (.idle, .returned sink)
  | .fail => (.failed, .returned sink)

/-- The engine after a call that was allowed, and the answer. -/
def outcome (ctx : CryptoContext) (c : Codec) (sink : Sink) (a : EngineAction) : Engine × Reply :=
  match a.work ctx c sink with
  | (c, sink, .ok ()) => (⟨c, (a.settled sink).1⟩, (a.settled sink).2)
  | (c, sink, .error e) => (⟨c, .failed⟩, .broken e sink)

end EngineAction

theorem Phase.isActive_iff {p : Phase} : p.isActive ↔ p = .encoding ∨ p = .decoding := by
  cases p <;> simp [isActive]

theorem Phase.not_isActive_iff {p : Phase} : p.isActive = false ↔ p = .idle ∨ p = .failed := by
  cases p <;> simp [isActive]

theorem Direction.isActive_phase (d : Direction) : d.phase.isActive := by cases d <;> rfl

theorem Direction.eq_of_phase_eq {d d' : Direction} (h : d.phase = d'.phase) : d = d' := by
  cases d <;> cases d' <;> first | rfl | cases h

theorem Direction.phase_ne {p : Phase} (h : p.isActive = false) (d : Direction) : p ≠ d.phase := by
  rintro rfl
  cases d <;> cases h

/-- A sink is bound exactly while a session is open. -/
def Session.IsBound (s : Session) : Prop :=
  s.sink?.isSome ↔ s.phase = .encoding ∨ s.phase = .decoding

namespace Session

theorem isBound_idle : idle.IsBound := by simp [IsBound, idle]

theorem isBound_failed : failed.IsBound := by simp [IsBound, failed]

theorem isBound_active (direction : Direction) (sink : Sink) : (active direction sink).IsBound :=
  ⟨fun _ => Phase.isActive_iff.1 direction.isActive_phase, fun _ => rfl⟩

theorem eq_active_of_isBound {s : Session} (h : s.IsBound) {direction : Direction}
    (hp : s.phase = direction.phase) : ∃ sink, s = active direction sink := by
  obtain ⟨phase, sink?⟩ := s
  cases hp
  have hsome : sink?.isSome := h.2 (Phase.isActive_iff.1 direction.isActive_phase)
  obtain ⟨sink, rfl⟩ := Option.isSome_iff_exists.1 hsome
  exact ⟨sink, rfl⟩

theorem eq_active_of_isBound_of_sink {s : Session} (h : s.IsBound) {sink : Sink}
    (hs : s.sink? = some sink) : ∃ direction, s = active direction sink := by
  obtain ⟨phase, sink?⟩ := s
  cases hs
  rcases h.1 rfl with hp | hp <;> cases hp
  · exact ⟨.encode, rfl⟩
  · exact ⟨.decode, rfl⟩

end Session

theorem Sink.precedes_carryOut (s : Sink) (flush : Bool) (step : Step Codec) :
    s.Precedes (s.carryOut flush step).1 := by
  have hd := s.precedes_deliver step.spans.toList
  unfold carryOut
  split
  next h => rwa [h] at hd
  next t h =>
    rw [h] at hd
    split
    · exact hd
    · split
      · exact hd.trans t.precedes_flush
      · exact hd

namespace Engine

theorem deliver_of_error {c : Codec} {direction : Direction} {sink t : Sink} {flush : Bool}
    {step : Step Codec} {error : Error} (h : sink.carryOut flush step = (t, .error error)) :
    (⟨c, .active direction sink⟩ : Engine).deliver flush step =
      (⟨step.state, .failed⟩, .broken error t) := by
  simp only [deliver, Session.active, h]

theorem deliver_of_ok {c : Codec} {direction : Direction} {sink t : Sink} {flush : Bool}
    {step : Step Codec} (h : sink.carryOut flush step = (t, .ok ())) :
    (⟨c, .active direction sink⟩ : Engine).deliver flush step =
      (⟨step.state, .active direction t⟩, .done) := by
  simp only [deliver, phase, Session.active, h]

theorem start_of_inactive {e : Engine} (h : e.phase.isActive = false) (direction : Direction)
    (sink : Sink) (parms : Option DecodeParms) (ctx : CryptoContext) :
    e.start direction sink parms ctx = ((e.codec.start direction ctx parms).1,
      (EngineAction.start direction sink parms).outcome ctx e.codec sink) := by
  simp only [start, h, Codec.supports, EngineAction.outcome, EngineAction.work, Bool.not_true,
    Bool.false_eq_true, ↓reduceIte]
  rcases hc : sink.carryOut false (e.codec.start direction ctx parms).2 with ⟨t, error | ⟨⟩⟩
  · rw [deliver_of_error hc]
  · rw [deliver_of_ok hc]
    rfl

theorem block_active (c : Codec) (direction : Direction) (sink : Sink) (data : Bytes)
    (ctx : CryptoContext) :
    (⟨c, .active direction sink⟩ : Engine).block direction data =
      (EngineAction.block direction data).outcome ctx c sink := by
  have hp : (⟨c, .active direction sink⟩ : Engine).phase = direction.phase := rfl
  simp only [block, hp, ↓reduceIte, EngineAction.outcome, EngineAction.work]
  rcases hc : sink.carryOut false (c.block direction data) with ⟨t, error | ⟨⟩⟩
  · rw [deliver_of_error hc]
  · rw [deliver_of_ok hc]
    rfl

theorem finish_active (c : Codec) (direction : Direction) (sink : Sink) (ctx : CryptoContext) :
    (⟨c, .active direction sink⟩ : Engine).finish direction =
      (EngineAction.finish direction).outcome ctx c sink := by
  have hp : (⟨c, .active direction sink⟩ : Engine).phase = direction.phase := rfl
  simp only [finish, hp, ↓reduceIte, EngineAction.outcome, EngineAction.work]
  rcases hc : sink.carryOut true (c.finish direction) with ⟨t, error | ⟨⟩⟩
  · rw [deliver_of_error hc]
  · rw [deliver_of_ok hc]
    rfl

theorem fail_active (c : Codec) (direction : Direction) (sink : Sink) (ctx : CryptoContext) :
    (⟨c, .active direction sink⟩ : Engine).fail = EngineAction.fail.outcome ctx c sink := by
  have hp : (⟨c, .active direction sink⟩ : Engine).phase.isActive = true :=
    direction.isActive_phase
  simp only [fail, hp, ↓reduceIte]
  rfl

/-- A one-shot call that gets to its end is a start, a block and a finish. -/
theorem oneShot_of_inactive {e : Engine} (h : e.phase.isActive = false) (direction : Direction)
    (sink : Sink) (parms : Option DecodeParms) (data : Bytes) (ctx : CryptoContext) :
    e.oneShot direction sink parms data ctx = ((e.codec.start direction ctx parms).1,
      (EngineAction.oneShot direction sink parms data).outcome ctx e.codec sink) := by
  simp only [oneShot, start_of_inactive h, EngineAction.outcome, EngineAction.work]
  generalize (e.codec.start direction ctx parms).2 = first
  rcases sink.carryOut false first with ⟨t, error | ⟨⟩⟩
  · rfl
  simp only [EngineAction.settled, block_active _ _ _ _ ctx, EngineAction.outcome,
    EngineAction.work]
  generalize first.state.block direction data = middle
  rcases t.carryOut false middle with ⟨u, error | ⟨⟩⟩
  · rfl
  simp only [finish_active _ _ _ ctx]
  rfl

end Engine
namespace EngineAction

theorem perform_of_not_allowed {a : EngineAction} {e : Engine} (h : ¬a.Allowed e.phase)
    (ctx : CryptoContext) : a.perform ctx e = (ctx, e.refuse a.call) := by
  cases a with
  | start direction sink parms =>
    have hp : e.phase.isActive = true := by
      rw [Allowed, ← Phase.not_isActive_iff] at h
      exact Bool.not_eq_false _ ▸ h
    simp only [perform, Engine.start, hp, ↓reduceIte, call]
  | block direction data =>
    have hp : ¬e.phase = direction.phase := h
    simp only [perform, Engine.block, hp, ↓reduceIte, call]
  | finish direction =>
    have hp : ¬e.phase = direction.phase := h
    simp only [perform, Engine.finish, hp, ↓reduceIte, call]
  | oneShot direction sink parms data =>
    have hp : e.phase.isActive = true := by
      rw [Allowed, ← Phase.not_isActive_iff] at h
      exact Bool.not_eq_false _ ▸ h
    simp only [perform, Engine.oneShot, Engine.start, hp, ↓reduceIte, call, Engine.refuse]
  | fail =>
    have hp : ¬e.phase.isActive = true := by rwa [Allowed, ← Phase.isActive_iff] at h
    simp only [perform, Engine.fail, hp, call]
    rfl

/-- An allowed call finds its sink and comes to what codec and sink make of it. -/
theorem perform_of_allowed {a : EngineAction} {e : Engine} (hb : e.session.IsBound)
    (h : a.Allowed e.phase) (ctx : CryptoContext) :
    ∃ sink, a.target e.session = some sink ∧
      (a.perform ctx e).2 = a.outcome ctx e.codec sink := by
  cases a with
  | start direction sink parms =>
    refine ⟨sink, rfl, ?_⟩
    rw [perform, Engine.start_of_inactive (Phase.not_isActive_iff.2 h)]
  | block direction data =>
    obtain ⟨c, session⟩ := e
    obtain ⟨sink, rfl⟩ := Session.eq_active_of_isBound hb h
    exact ⟨sink, rfl, Engine.block_active c direction sink data ctx⟩
  | finish direction =>
    obtain ⟨c, session⟩ := e
    obtain ⟨sink, rfl⟩ := Session.eq_active_of_isBound hb h
    exact ⟨sink, rfl, Engine.finish_active c direction sink ctx⟩
  | oneShot direction sink parms data =>
    refine ⟨sink, rfl, ?_⟩
    rw [perform, Engine.oneShot_of_inactive (Phase.not_isActive_iff.2 h)]
  | fail =>
    obtain ⟨c, session⟩ := e
    obtain ⟨sink, hs⟩ := Option.isSome_iff_exists.1 (hb.2 h)
    obtain ⟨direction, rfl⟩ := Session.eq_active_of_isBound_of_sink hb hs
    exact ⟨sink, rfl, Engine.fail_active c direction sink ctx⟩

theorem precedes_work (ctx : CryptoContext) (c : Codec) (sink : Sink) (a : EngineAction) :
    sink.Precedes (a.work ctx c sink).2.1 := by
  cases a with
  | start direction _ parms => exact sink.precedes_carryOut _ _
  | block direction data => exact sink.precedes_carryOut _ _
  | finish direction => exact sink.precedes_carryOut _ _
  | oneShot direction _ parms data =>
    have h₁ := sink.precedes_carryOut false (c.start direction ctx parms).2
    simp only [work]
    generalize (c.start direction ctx parms).2 = first at h₁ ⊢
    rcases hc : sink.carryOut false first with ⟨t, error | ⟨⟩⟩ <;> rw [hc] at h₁
    · exact h₁
    have h₂ := t.precedes_carryOut false (first.state.block direction data)
    simp only
    generalize first.state.block direction data = middle at h₂ ⊢
    rcases hd : t.carryOut false middle with ⟨u, error | ⟨⟩⟩ <;> rw [hd] at h₂
    · exact h₁.trans h₂
    · exact (h₁.trans h₂).trans (u.precedes_carryOut _ _)
  | fail => exact .refl sink

/-- After an allowed call a sink is bound exactly if the call left a session open, and then it is
the one that the call worked on. -/
theorem session_outcome (ctx : CryptoContext) (c : Codec) (sink : Sink) (a : EngineAction) :
    (a.outcome ctx c sink).1.session.IsBound ∧
      ∀ t, (a.outcome ctx c sink).1.session.sink? = some t → sink.Precedes t := by
  have hw := precedes_work ctx c sink a
  unfold outcome
  rcases h : a.work ctx c sink with ⟨c', t, error | ⟨⟩⟩ <;> rw [h] at hw
  · exact ⟨Session.isBound_failed, fun _ h => nomatch h⟩
  cases a with
  | start direction _ _ =>
    exact ⟨Session.isBound_active direction t, fun u h => Option.some.inj h ▸ hw⟩
  | block direction _ =>
    exact ⟨Session.isBound_active direction t, fun u h => Option.some.inj h ▸ hw⟩
  | finish _ => exact ⟨Session.isBound_idle, fun _ h => nomatch h⟩
  | oneShot _ _ _ _ => exact ⟨Session.isBound_idle, fun _ h => nomatch h⟩
  | fail => exact ⟨Session.isBound_failed, fun _ h => nomatch h⟩

theorem outcome_ne_refused (ctx : CryptoContext) (c : Codec) (sink : Sink) (a : EngineAction)
    (error : Error) : (a.outcome ctx c sink).2 ≠ .refused error := by
  unfold outcome
  rcases a.work ctx c sink with ⟨c', t, error' | ⟨⟩⟩
  · exact Reply.noConfusion
  · cases a <;> exact Reply.noConfusion

end EngineAction

/-- An engine in use, and the sink that was given to the start it accepted last. -/
structure EngineRun where
  engine : Engine
  opened : Option Sink := none

namespace EngineRun

def step (r : EngineRun) (ctx : CryptoContext) (a : EngineAction) : EngineRun where
  engine := (a.perform ctx r.engine).2.1
  opened :=
    match a with
    | .start _ sink _ | .oneShot _ sink _ _ =>
      if r.engine.phase.isActive then r.opened else sink
    | .block _ _ | .finish _ | .fail => r.opened

@[simp] theorem engine_step (r : EngineRun) (ctx : CryptoContext) (a : EngineAction) :
    (r.step ctx a).engine = (a.perform ctx r.engine).2.1 := rfl

/-- A new engine after a history of calls, each with the crypto context that it met. -/
def ofHistory (codec : Codec) (history : List (CryptoContext × EngineAction)) : EngineRun :=
  history.foldl (fun r call => r.step call.1 call.2) { engine := { codec } }

/-- A sink is bound exactly while a session is open, and it is the one that the start was given. -/
def Good (r : EngineRun) : Prop :=
  r.engine.session.IsBound ∧
    ∀ sink, r.engine.session.sink? = some sink →
      ∃ first, r.opened = some first ∧ first.Precedes sink

theorem Good.step {r : EngineRun} (h : r.Good) (ctx : CryptoContext) (a : EngineAction) :
    (r.step ctx a).Good := by
  by_cases ha : a.Allowed r.engine.phase
  · obtain ⟨sink, ht, ho⟩ := a.perform_of_allowed h.1 ha ctx
    obtain ⟨hb, hs⟩ := a.session_outcome ctx r.engine.codec sink
    rw [Good, engine_step, ho]
    refine ⟨hb, ?_⟩
    intro t hsink
    have hlater := hs t hsink
    cases a with
    | start _ _ _ | oneShot _ _ _ _ =>
      cases ht
      have hp := Phase.not_isActive_iff.2 ha
      exact ⟨sink, by simp [EngineRun.step, hp], hlater⟩
    | block _ _ | finish _ | fail =>
      obtain ⟨first, hf, hp⟩ := h.2 sink ht
      exact ⟨first, hf, hp.trans hlater⟩
  · have hr := a.perform_of_not_allowed ha ctx
    rw [Good, engine_step, hr]
    refine ⟨h.1, ?_⟩
    intro t hsink
    obtain ⟨first, hf, hp⟩ := h.2 t hsink
    refine ⟨first, ?_, hp⟩
    cases a with
    | start _ _ _ | oneShot _ _ _ _ =>
      rw [EngineAction.Allowed, ← Phase.not_isActive_iff, Bool.not_eq_false] at ha
      simp [EngineRun.step, ha, hf]
    | block _ _ | finish _ | fail => exact hf

theorem good_ofHistory (codec : Codec) (history : List (CryptoContext × EngineAction)) :
    (ofHistory codec history).Good := by
  have hstart : (⟨{ codec }, none⟩ : EngineRun).Good :=
    ⟨Session.isBound_idle, fun _ h => nomatch h⟩
  unfold ofHistory
  generalize (⟨{ codec }, none⟩ : EngineRun) = r at hstart
  induction history generalizing r with
  | nil => exact hstart
  | cons call history ih => exact ih _ (hstart.step call.1 call.2)

/-- After any history a sink is bound exactly while a session is open, and it is the sink of the
start; the engine never finds itself without one. A call that the phase does not allow is refused
and changes nothing. An allowed call does what codec and sink make of it: if both do well the
session moves on, otherwise their error is the answer and the session has failed. -/
theorem engine_lifecycle (codec : Codec) (history : List (CryptoContext × EngineAction)) :
    let r := ofHistory codec history
    let e := r.engine
    (e.session.sink?.isSome ↔ e.phase = .encoding ∨ e.phase = .decoding) ∧
    (∀ sink, e.session.sink? = some sink →
      ∃ first, r.opened = some first ∧ first.Precedes sink) ∧
    ∀ (ctx : CryptoContext) (a : EngineAction),
      (∀ kind, (a.perform ctx e).2.2 ≠ .refused (.usage (.engineUnbound kind))) ∧
      (¬a.Allowed e.phase → a.perform ctx e =
        (ctx, e, .refused (.usage (.engineCall e.kind a.call e.phase)))) ∧
      (a.Allowed e.phase → ∃ sink, a.target e.session = some sink ∧
        match a.work ctx e.codec sink with
        | (c, t, .ok ()) => sink.Precedes t ∧
          (a.perform ctx e).2 = (⟨c, (a.settled t).1⟩, (a.settled t).2)
        | (c, t, .error error) => (a.perform ctx e).2 = (⟨c, .failed⟩, .broken error t)) := by
  intro r e
  have hgood : r.Good := good_ofHistory codec history
  refine ⟨hgood.1, hgood.2, fun ctx a =>
    ⟨fun kind => ?_, fun ha => a.perform_of_not_allowed ha ctx, ?_⟩⟩
  · by_cases ha : a.Allowed e.phase
    · obtain ⟨sink, -, ho⟩ := a.perform_of_allowed hgood.1 ha ctx
      rw [ho]
      exact a.outcome_ne_refused ctx e.codec sink _
    · rw [a.perform_of_not_allowed ha ctx]
      intro h
      cases h
  · intro ha
    obtain ⟨sink, ht, ho⟩ := a.perform_of_allowed hgood.1 ha ctx
    have hw := a.precedes_work ctx e.codec sink
    refine ⟨sink, ht, ?_⟩
    rw [ho]
    unfold EngineAction.outcome
    rcases h : a.work ctx e.codec sink with ⟨c, t, error | ⟨⟩⟩
    · rfl
    · rw [h] at hw
      exact ⟨hw, rfl⟩

end EngineRun
end PdfStream
