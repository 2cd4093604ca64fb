import PdfStream.Proofs.Engine.History

/-!
What the lifecycle does for a codec. A property that every start establishes and every block keeps,
as long as there is no fault, holds in each open session, whatever has been called before: an engine
asks a codec for nothing after a fault, and for nothing that the phase does not allow.
-/
namespace PdfStream

/-- A start that succeeds establishes `P`, and blocks that succeed keep it. -/
structure Codec.IsInvariant (P : Direction → Codec → Prop) : Prop where
  start : ∀ (direction : Direction) (ctx : CryptoContext) (parms : Option DecodeParms) (c : Codec),
    (c.start direction ctx parms).2.fault = none → P direction (c.start direction ctx parms).2.state
  block : ∀ (direction : Direction) (data : Bytes) (c : Codec), P direction c →
    (c.block direction data).fault = none → P direction (c.block direction data).state

namespace Engine

/-- A sink is bound exactly while a session is open, and then the codec has `P`. -/
structure Holds (P : Direction → Codec → Prop) (e : Engine) : Prop where
  bound : e.session.IsBound
  codec : ∀ direction : Direction, e.phase = direction.phase → P direction e.codec

section
variable {P : Direction → Codec → Prop} {e : Engine}

theorem holds_idle (c : Codec) : Holds P ⟨c, .idle⟩ :=
  ⟨Session.isBound_idle, fun direction h => absurd h (direction.phase_ne rfl)⟩

theorem holds_failed (c : Codec) : Holds P ⟨c, .failed⟩ :=
  ⟨Session.isBound_failed, fun direction h => absurd h (direction.phase_ne rfl)⟩

theorem holds_active {c : Codec} {direction : Direction} (h : P direction c) (sink : Sink) :
    Holds P ⟨c, .active direction sink⟩ := by
  refine ⟨Session.isBound_active direction sink, ?_⟩
  intro direction' hphase
  rwa [← Direction.eq_of_phase_eq hphase]

theorem holds_outcome (hP : Codec.IsInvariant P) {ctx : CryptoContext} {c : Codec} {sink : Sink}
    {a : EngineAction} (h : ∀ direction data, a = .block direction data → P direction c) :
    Holds P (a.outcome ctx c sink).1 := by
  unfold EngineAction.outcome
  rcases hwork : a.work ctx c sink with ⟨c', t, error | ⟨⟩⟩
  · exact holds_failed c'
  cases a with
  | start direction _ parms =>
    obtain ⟨rfl, hcarry⟩ := Prod.mk.inj hwork
    exact holds_active (hP.start direction ctx parms c (Sink.fault_of_carryOut hcarry)) t
  | block direction data =>
    obtain ⟨rfl, hcarry⟩ := Prod.mk.inj hwork
    have hbefore := h direction data rfl
    exact holds_active (hP.block direction data c hbefore (Sink.fault_of_carryOut hcarry)) t
  | finish | oneShot => exact holds_idle c'
  | fail => exact holds_failed c'

theorem Holds.perform (hP : Codec.IsInvariant P) (h : e.Holds P) (ctx : CryptoContext)
    (a : EngineAction) : (a.perform ctx e).2.1.Holds P := by
  by_cases ha : a.Allowed e.phase
  · obtain ⟨sink, -, houtcome⟩ := a.perform_of_allowed h.bound ha ctx
    rw [houtcome]
    apply holds_outcome hP
    rintro direction data rfl
    exact h.codec direction ha
  · rwa [a.perform_of_not_allowed ha ctx]

/-- By induction on the history. -/
theorem Reachable.holds (hP : Codec.IsInvariant P) {codec : Codec} (h : Reachable codec e) :
    e.Holds P := by
  induction h with
  | new => exact holds_idle codec
  | call _ ctx a ih => exact ih.perform hP ctx a
  | amid _ _ _ _ c _ _ => exact holds_failed c

end

end Engine
end PdfStream
