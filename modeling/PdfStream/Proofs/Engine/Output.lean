import PdfStream.Proofs.Engine.History
import PdfStream.Proofs.Sink.Session

/-!
The sink of an engine. What a session asks of it is settled by the codec, and every write goes through
the same check.
-/
namespace PdfStream.Engine

def call (e : Engine) : SessionCall → Engine × Reply
  | .block direction data => e.block direction data
  | .finish direction => e.finish direction
  | .fail => e.fail

/-- What the owner of the sink sees of a session: the opening call, then any others. -/
def sessionView (e : Engine) (direction : Direction) (parms : Option DecodeParms)
    (data? : Option Bytes) (sink : Sink) (ctx : CryptoContext) (calls : List SessionCall) :
    SessionView :=
  let (_, opened, reply) := (EngineAction.opening direction parms data? sink).perform ctx e
  let first : SessionView := ⟨sink, .done, e.phase⟩
  .follow call session opened (first.next reply opened.session) calls

theorem serves (direction : Direction) :
    Serves (Codec.coder direction) direction call session Engine.mk id where
  session_place _ _ := rfl
  refuses e c h := by
    cases c with
    | block d data =>
      have hphase : ¬e.phase = d.phase := h
      simp only [call, block, hphase, ↓reduceIte]
      exact ⟨_, rfl⟩
    | finish d =>
      have hphase : ¬e.phase = d.phase := h
      simp only [call, finish, hphase, ↓reduceIte]
      exact ⟨_, rfl⟩
    | fail =>
      have hphase : ¬e.phase.isActive := h
      simp only [call, fail, hphase]
      exact ⟨_, rfl⟩
  block c sink data := by
    simp only [call, block_active _ _ _ _ {}, EngineAction.outcome, EngineAction.work,
      Sink.carryOut_eq_carry, Codec.coder]
    rcases sink.carry false _ _ with ⟨t, e | ⟨⟩⟩ <;> rfl
  finish c sink := by
    simp only [call, finish_active _ _ _ {}, EngineAction.outcome, EngineAction.work,
      Sink.carryOut_eq_carry, Codec.coder]
    rcases sink.carry true _ _ with ⟨t, e | ⟨⟩⟩ <;> rfl
  fail c sink := fail_active c direction sink {}

section
variable {e : Engine} (h : e.phase.isActive = false) (direction : Direction)
  (parms : Option DecodeParms) (sink : Sink) (ctx : CryptoContext) (calls : List SessionCall)
include h

theorem sessionView_start : e.sessionView direction parms none sink ctx calls =
    .play direction ⟨sink, .done, direction.phase⟩
      (.write (e.codec.start direction ctx parms).2.spans.toList
          (e.codec.start direction ctx parms).2.fault ::
        (Codec.coder direction).script direction (e.codec.start direction ctx parms).2.state
          calls) := by
  simp only [sessionView, EngineAction.opening, EngineAction.perform, start_of_inactive h,
    EngineAction.outcome, EngineAction.work, Sink.carryOut_eq_carry, SessionView.play]
  rcases sink.carry false _ _ with ⟨t, e | ⟨⟩⟩
  · exact (serves direction).follow_failed _ _ _
  · exact (serves direction).follow_eq_play _ _ _ _

/-- A one-shot call is a start, a block and an end. It leaves no session open for other calls. -/
theorem sessionView_oneShot (data : Bytes) :
    e.sessionView direction parms (some data) sink ctx calls =
      e.sessionView direction parms none sink ctx [.block direction data, .finish direction] := by
  rw [sessionView_start h]
  simp only [sessionView, EngineAction.opening, EngineAction.perform, oneShot_of_inactive h,
    EngineAction.outcome, EngineAction.work, Sink.carryOut_eq_carry, SessionView.play,
    Coder.script, ↓reduceIte, Codec.coder]
  rcases sink.carry false _ _ with ⟨t, e | ⟨⟩⟩
  · exact (serves direction).follow_failed _ _ _
  dsimp only
  rcases t.carry false _ _ with ⟨u, e | ⟨⟩⟩
  · exact (serves direction).follow_failed _ _ _
  dsimp only
  rcases u.carry true _ _ with ⟨v, e | ⟨⟩⟩
  · exact (serves direction).follow_failed _ _ _
  · exact (serves direction).follow_idle _ _ _

/-- A session is its tasks, carried out on the sink. -/
theorem exists_tasks (data? : Option Bytes) : ∃ tasks, ∀ sink,
    e.sessionView direction parms data? sink ctx calls =
      .play direction ⟨sink, .done, direction.phase⟩ tasks := by
  cases data? with
  | none => exact ⟨_, fun sink => sessionView_start h direction parms sink ctx calls⟩
  | some data =>
    exact ⟨_, fun sink => (sessionView_oneShot h direction parms sink ctx calls data).trans
      (sessionView_start h direction parms sink ctx _)⟩

end

end PdfStream.Engine
