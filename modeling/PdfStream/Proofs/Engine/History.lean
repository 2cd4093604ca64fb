import PdfStream.Proofs.Codec.Restart
import PdfStream.Proofs.Engine.Lifecycle

/-!
Histories of an engine. Once a session is over, nothing that it has left in the codec shows in later
answers: the next session runs as on a new engine with the same settings. Two runs are compared call
by call, the codecs being equal in what the open session works on.
-/
namespace PdfStream

theorem Sink.carryOut_congr {r r' : Step Codec} (hspans : r.spans = r'.spans)
    (hfault : r.fault = r'.fault) (s : Sink) (flush : Bool) :
    s.carryOut flush r = s.carryOut flush r' := by
  unfold carryOut
  rw [hspans, hfault]

theorem Sink.fault_of_carryOut {s t : Sink} {flush : Bool} {r : Step Codec}
    (h : s.carryOut flush r = (t, .ok ())) : r.fault = none := by
  unfold carryOut at h
  split at h
  · cases h
  · split at h
    · cases h
    · assumption

/-- The call that opens a session: a start, or a one-shot call if the data come with it. -/
def EngineAction.opening (direction : Direction) (parms : Option DecodeParms)
    (data? : Option Bytes) (sink : Sink) : EngineAction :=
  match data? with
  | none => .start direction sink parms
  | some data => .oneShot direction sink parms data

namespace Engine

theorem fresh_deliver {e : Engine} {step : Step Codec} (h : step.state.fresh = e.codec.fresh)
    (flush : Bool) : (e.deliver flush step).1.codec.fresh = e.codec.fresh := by
  unfold deliver
  split
  · rfl
  · split <;> exact h

theorem fresh_start (e : Engine) (direction : Direction) (sink : Sink)
    (parms : Option DecodeParms) (ctx : CryptoContext) :
    (e.start direction sink parms ctx).2.1.codec.fresh = e.codec.fresh := by
  unfold start
  split
  · rfl
  · split
    · rfl
    · exact fresh_deliver (e := { e with session := .active direction sink })
        (e.codec.fresh_start direction ctx parms) false

theorem fresh_block (e : Engine) (direction : Direction) (data : Bytes) :
    (e.block direction data).1.codec.fresh = e.codec.fresh := by
  unfold block
  split
  · exact fresh_deliver (e.codec.fresh_block direction data) false
  · rfl

theorem fresh_finish (e : Engine) (direction : Direction) :
    (e.finish direction).1.codec.fresh = e.codec.fresh := by
  have hdeliver := fresh_deliver (e.codec.fresh_finish direction) true
  unfold finish
  split
  · revert hdeliver
    rcases e.deliver true (e.codec.finish direction) with ⟨e', reply⟩
    intro hdeliver
    cases reply with
    | done =>
      dsimp only
      split <;> exact hdeliver
    | returned | refused | broken => exact hdeliver
  · rfl

theorem fresh_fail (e : Engine) : e.fail.1.codec.fresh = e.codec.fresh := by
  unfold fail
  split
  · split <;> rfl
  · rfl

theorem fresh_oneShot (e : Engine) (direction : Direction) (sink : Sink)
    (parms : Option DecodeParms) (data : Bytes) (ctx : CryptoContext) :
    (e.oneShot direction sink parms data ctx).2.1.codec.fresh = e.codec.fresh := by
  have hstart := e.fresh_start direction sink parms ctx
  unfold oneShot
  revert hstart
  rcases e.start direction sink parms ctx with ⟨ctx', e₁, reply⟩
  intro hstart
  cases reply with
  | done =>
    have hblock := (e₁.fresh_block direction data).trans hstart
    dsimp only
    revert hblock
    rcases e₁.block direction data with ⟨e₂, reply⟩
    intro hblock
    cases reply with
    | done => exact (e₂.fresh_finish direction).trans hblock
    | returned | refused | broken => exact hblock
  | returned | refused | broken => exact hstart

theorem fresh_perform (e : Engine) (ctx : CryptoContext) (a : EngineAction) :
    (a.perform ctx e).2.1.codec.fresh = e.codec.fresh := by
  cases a with
  | start direction sink parms => exact e.fresh_start direction sink parms ctx
  | block direction data => exact e.fresh_block direction data
  | finish direction => exact e.fresh_finish direction
  | oneShot direction sink parms data => exact e.fresh_oneShot direction sink parms data ctx
  | fail => exact e.fresh_fail

/-- The engines that calls can make of a new one. -/
inductive Reachable (codec : Codec) : Engine → Prop
  | new : Reachable codec { codec }
  | call {e : Engine} (before : Reachable codec e) (ctx : CryptoContext) (a : EngineAction) :
    Reachable codec (a.perform ctx e).2.1
  /-- Where a failure comes amid the work of the codec, it may stop anywhere. Only its settings are
  sure to be what they were. -/
  | amid {e : Engine} (before : Reachable codec e) (ctx : CryptoContext) (a : EngineAction)
    {error : Error} {sink? : Option Sink} (broken : (a.perform ctx e).2.2 = .broken error sink?)
    (c : Codec) (settings : c.fresh = codec.fresh) : Reachable codec ⟨c, .failed⟩

theorem Reachable.settings {codec : Codec} {e : Engine} (h : Reachable codec e) :
    e.codec.fresh = codec.fresh := by
  induction h with
  | new => rfl
  | call _ ctx a ih => exact (fresh_perform _ ctx a).trans ih
  | amid _ _ _ _ _ settings _ => exact settings

/-- No call tells the two engines apart: their codecs have the same settings and are equal in what
the open session works on. -/
structure Mirrors (e e' : Engine) : Prop where
  session : e.session = e'.session
  settings : e.codec.fresh = e'.codec.fresh
  inUse : ∀ d : Direction, e.phase = d.phase → e.codec.inUse d = e'.codec.inUse d

/-- The same answer, and engines that no later call tells apart. -/
def Concur (o o' : Engine × Reply) : Prop := o.1.Mirrors o'.1 ∧ o.2 = o'.2

section
variable {e e' : Engine}

theorem mirrors_of_inactive (hsession : e.session = e'.session)
    (hsettings : e.codec.fresh = e'.codec.fresh) (h : e.phase.isActive = false) : e.Mirrors e' :=
  ⟨hsession, hsettings, fun d hd => absurd hd (d.phase_ne h)⟩

theorem Mirrors.kind (h : e.Mirrors e') : e.kind = e'.kind := Codec.kind_of_fresh h.settings

theorem Mirrors.phase (h : e.Mirrors e') : e.phase = e'.phase := congrArg Session.phase h.session

theorem refuse_concur (h : e.Mirrors e') (call : Call) : Concur (e.refuse call) (e'.refuse call) := by
  refine ⟨h, ?_⟩
  simp only [refuse, h.kind, h.phase]

theorem unbound_eq (h : e.Mirrors e') : e.unbound = e'.unbound := by
  simp only [unbound, h.kind]

/-- Parallel steps carried out on the same sink. -/
theorem deliver_concur (hsession : e.session = e'.session)
    (hbound : e.session.sink? = none → e.Mirrors e') {direction : Direction}
    (hphase : e.phase = direction.phase) {r r' : Step Codec} (h : Codec.Parallel direction r r')
    (flush : Bool) : Concur (e.deliver flush r) (e'.deliver flush r') := by
  obtain ⟨c, phase, sink?⟩ := e
  obtain ⟨c', session'⟩ := e'
  cases hsession
  cases sink? with
  | none => exact ⟨hbound rfl, unbound_eq (hbound rfl)⟩
  | some sink =>
    have hcarry := Sink.carryOut_congr h.spans h.fault sink flush
    rcases hwork : sink.carryOut flush r with ⟨t, error | ⟨⟩⟩
    · simp only [deliver, ← hcarry, hwork]
      exact ⟨mirrors_of_inactive rfl h.settings rfl, rfl⟩
    · have hfault := Sink.fault_of_carryOut hwork
      simp only [deliver, ← hcarry, hwork]
      refine ⟨⟨rfl, h.settings, ?_⟩, rfl⟩
      intro d hd
      cases Direction.eq_of_phase_eq (hphase.symm.trans hd)
      exact h.inUse hfault

theorem block_concur (h : e.Mirrors e') (direction : Direction) (data : Bytes) :
    Concur (e.block direction data) (e'.block direction data) := by
  unfold block
  rw [← h.phase]
  split
  next hp =>
    exact deliver_concur h.session (fun _ => h) hp (Codec.block_parallel (h.inUse _ hp) data) false
  next => exact refuse_concur h _

theorem finish_concur (h : e.Mirrors e') (direction : Direction) :
    Concur (e.finish direction) (e'.finish direction) := by
  unfold finish
  rw [← h.phase]
  split
  next hp =>
    have hdeliver := deliver_concur h.session (fun _ => h) hp
      (Codec.finish_parallel (h.inUse _ hp)) true
    revert hdeliver
    rcases e.deliver true (e.codec.finish direction) with ⟨e₁, reply⟩
    rcases e'.deliver true (e'.codec.finish direction) with ⟨e₂, reply'⟩
    rintro ⟨hmirrors, ⟨⟩⟩
    cases reply with
    | done =>
      dsimp only at hmirrors ⊢
      rw [← hmirrors.session]
      split
      · exact ⟨hmirrors, unbound_eq hmirrors⟩
      · exact ⟨mirrors_of_inactive rfl hmirrors.settings rfl, rfl⟩
    | returned | refused | broken => exact ⟨hmirrors, rfl⟩
  next => exact refuse_concur h _

theorem fail_concur (h : e.Mirrors e') : Concur e.fail e'.fail := by
  unfold fail
  rw [← h.phase, ← h.session]
  split
  · split
    · exact ⟨mirrors_of_inactive rfl h.settings rfl, unbound_eq h⟩
    · exact ⟨mirrors_of_inactive rfl h.settings rfl, rfl⟩
  · exact refuse_concur h _

/-- Whatever the codecs still hold of earlier sessions, a start sets it right. -/
theorem start_concur (hsettings : e.codec.fresh = e'.codec.fresh) (hp : e.phase.isActive = false)
    (hp' : e'.phase.isActive = false) {direction : Direction} {ctx ctx' : CryptoContext}
    (hctx : e.codec.MeetsAlike direction ctx ctx') (sink : Sink) (parms : Option DecodeParms) :
    Concur (e.start direction sink parms ctx).2
      (e'.start direction sink parms ctx').2 := by
  simp only [start, hp, hp', Codec.supports, Bool.not_true, Bool.false_eq_true, ↓reduceIte]
  refine deliver_concur rfl (fun h => ?_) rfl (Codec.start_parallel hsettings hctx parms) false
  cases h

theorem oneShot_concur {ctx ctx' : CryptoContext} {direction : Direction} {sink : Sink}
    {parms : Option DecodeParms} (h : Concur (e.start direction sink parms ctx).2
      (e'.start direction sink parms ctx').2) (data : Bytes) :
    Concur (e.oneShot direction sink parms data ctx).2
      (e'.oneShot direction sink parms data ctx').2 := by
  unfold oneShot
  revert h
  rcases e.start direction sink parms ctx with ⟨ctx₁, e₁, reply⟩
  rcases e'.start direction sink parms ctx' with ⟨ctx₂, e₂, reply'⟩
  rintro ⟨hstart, ⟨⟩⟩
  cases reply with
  | done =>
    have hblock := block_concur hstart direction data
    dsimp only
    revert hblock
    rcases e₁.block direction data with ⟨e₃, reply⟩
    rcases e₂.block direction data with ⟨e₄, reply'⟩
    rintro ⟨hmirrors, ⟨⟩⟩
    cases reply with
    | done => exact finish_concur hmirrors direction
    | returned | refused | broken => exact ⟨hmirrors, rfl⟩
  | returned | refused | broken => exact ⟨hstart, rfl⟩

/-- The contexts matter only to an engine that can open a session. -/
theorem start_concur_of_mirrors (h : e.Mirrors e') {direction : Direction}
    {ctx ctx' : CryptoContext}
    (hctx : e.phase.isActive = false → e.codec.MeetsAlike direction ctx ctx') (sink : Sink)
    (parms : Option DecodeParms) : Concur (e.start direction sink parms ctx).2
      (e'.start direction sink parms ctx').2 := by
  by_cases hp : e.phase.isActive
  · have hp' : e'.phase.isActive := h.phase ▸ hp
    simp only [start, hp, hp', ↓reduceIte]
    exact refuse_concur h _
  · have hidle := Bool.eq_false_iff.2 hp
    exact start_concur h.settings hidle (h.phase ▸ hidle) (hctx hidle) sink parms

theorem perform_concur (h : e.Mirrors e') {ctx ctx' : CryptoContext}
    (hctx : e.phase.isActive = false → ∀ direction, e.codec.MeetsAlike direction ctx ctx')
    (a : EngineAction) : Concur (a.perform ctx e).2 (a.perform ctx' e').2 := by
  cases a with
  | start direction sink parms =>
    exact start_concur_of_mirrors h (fun hp => hctx hp direction) sink parms
  | block direction data => exact block_concur h direction data
  | finish direction => exact finish_concur h direction
  | oneShot direction sink parms data =>
    exact oneShot_concur (start_concur_of_mirrors h (fun hp => hctx hp direction) sink parms) data
  | fail => exact fail_concur h

theorem opening_concur (hsettings : e.codec.fresh = e'.codec.fresh) (hp : e.phase.isActive = false)
    (hp' : e'.phase.isActive = false) {direction : Direction} {ctx ctx' : CryptoContext}
    (hctx : e.codec.MeetsAlike direction ctx ctx') (parms : Option DecodeParms)
    (data? : Option Bytes) (sink : Sink) :
    Concur ((EngineAction.opening direction parms data? sink).perform ctx e).2
      ((EngineAction.opening direction parms data? sink).perform ctx' e').2 := by
  have hstart := start_concur hsettings hp hp' hctx sink parms
  cases data? with
  | none => exact hstart
  | some data => exact oneShot_concur hstart data

end

/-- What each call answers, and the session as it leaves it. -/
def answers : Engine → List (CryptoContext × EngineAction) → List (Reply × Session)
  | _, [] => []
  | e, (ctx, a) :: calls =>
    let (_, e, reply) := a.perform ctx e
    (reply, e.session) :: e.answers calls

theorem answers_cons (e : Engine) (ctx : CryptoContext) (a : EngineAction)
    (calls : List (CryptoContext × EngineAction)) : e.answers ((ctx, a) :: calls) =
      ((a.perform ctx e).2.2, (a.perform ctx e).2.1.session) ::
        (a.perform ctx e).2.1.answers calls := rfl

theorem Mirrors.answers {e e' : Engine} (h : e.Mirrors e')
    (calls : List (CryptoContext × EngineAction)) : e.answers calls = e'.answers calls := by
  induction calls generalizing e e' with
  | nil => rfl
  | cons call calls ih =>
    obtain ⟨ctx, a⟩ := call
    obtain ⟨hmirrors, hreply⟩ := perform_concur h (fun _ _ => Codec.meetsAlike_self) a
    rw [answers_cons, answers_cons, hreply, hmirrors.session, ih hmirrors]

/-- After any history that leaves no session open, a session and all that follows it get the answers
that they would get from a new engine, if the contexts serve the codec alike. -/
theorem Reachable.answers_eq_new {codec : Codec} {e : Engine} (h : Reachable codec e)
    (hp : e.phase.isActive = false) {direction : Direction} {ctx ctx' : CryptoContext}
    (hctx : codec.MeetsAlike direction ctx ctx') (parms : Option DecodeParms)
    (data? : Option Bytes) (sink : Sink) (calls : List (CryptoContext × EngineAction)) :
    e.answers ((ctx, .opening direction parms data? sink) :: calls) =
      ({ codec := codec.fresh } : Engine).answers
        ((ctx', .opening direction parms data? sink) :: calls) := by
  have hsettings : e.codec.fresh = codec.fresh.fresh := by rw [h.settings, Codec.fresh_fresh]
  have hown : e.codec.MeetsAlike direction ctx ctx' := by
    rwa [← Codec.meetsAlike_fresh, h.settings, Codec.meetsAlike_fresh]
  have hidle : ({ codec := codec.fresh } : Engine).phase.isActive = false := rfl
  obtain ⟨hmirrors, hreply⟩ := opening_concur hsettings hp hidle hown parms data? sink
  rw [answers_cons, answers_cons, hreply, hmirrors.session, hmirrors.answers]

end Engine
end PdfStream
