import PdfStream.Proofs.Chain.History
import PdfStream.Proofs.Engine.Output

/-!
The sink of a chain. What leaves the last stage reaches it in one write a call; whatever it answers,
no output of an engine or a chain is lost silently.
-/
namespace PdfStream
namespace Chain

def call (c : Chain) : SessionCall → Chain × Reply
  | .block direction data => c.block direction data
  | .finish direction => c.finish direction
  | .fail => c.fail

/-- What the owner of the sink sees of a session: the opening call, then any others. -/
def sessionView (c : Chain) (direction : Direction) (data? : Option Bytes) (sink : Sink)
    (ctx : CryptoContext) (calls : List SessionCall) : SessionView :=
  let (_, opened, reply) := (ChainAction.opening direction data? sink).perform ctx c
  let first : SessionView := ⟨sink, .done, c.phase⟩
  .follow call session opened (first.next reply opened.session) calls

/-- What the stages bring together, as one step. -/
def stepOf (direction : Direction) : List Stage × Except Error Bytes → Step (List Stage)
  | (stages, .ok out) => .write (inOrder direction stages) out
  | (stages, .error e) => .stop (inOrder direction stages) e

/-- The stages as one coder. -/
def coder (direction : Direction) : Coder (List Stage) where
  block data stages := stepOf direction (relay (pumpEngine direction) data (inOrder direction stages))
  finish stages := stepOf direction (relay (finishEngine direction) [] (inOrder direction stages))

theorem serves (direction : Direction) :
    Serves (coder direction) direction call session Chain.mk abandon where
  session_place _ _ := rfl
  refuses c call h := by
    cases call with
    | block d data =>
      have hphase : ¬c.phase = d.phase := h
      simp only [Chain.call, block, hphase, ↓reduceIte]
      exact ⟨_, rfl⟩
    | finish d =>
      have hphase : ¬c.phase = d.phase := h
      simp only [Chain.call, finish, hphase, ↓reduceIte]
      exact ⟨_, rfl⟩
    | fail =>
      have hphase : ¬c.phase.isActive := h
      simp only [Chain.call, fail, hphase]
      exact ⟨_, rfl⟩
  block stages sink data := by
    simp only [call, block, phase, Session.active, ↓reduceIte, coder]
    rcases relay (pumpEngine direction) data (inOrder direction stages) with ⟨stages', e | out⟩
    · rfl
    · simp only [stepOf, Step.write, Sink.carry, Sink.deliver]
      rcases sink.put out with ⟨t, e | ⟨⟩⟩ <;> rfl
  finish stages sink := by
    simp only [call, finish, phase, Session.active, ↓reduceIte, coder]
    rcases relay (finishEngine direction) [] (inOrder direction stages) with ⟨stages', e | out⟩
    · rfl
    · simp only [stepOf, Step.write, Sink.carry, Sink.deliver]
      rcases sink.put out with ⟨t, e | ⟨⟩⟩
      · rfl
      · simp only [↓reduceIte]
        rcases t.flush with ⟨u, e | ⟨⟩⟩ <;> rfl
  fail stages sink := by
    have hactive : (⟨stages, .active direction sink⟩ : Chain).phase.isActive :=
      direction.isActive_phase
    simp only [call, fail, hactive, ↓reduceIte]
    rfl

section
variable {c : Chain} (h : c.phase.isActive = false) (direction : Direction) (sink : Sink)
  (ctx : CryptoContext) (calls : List SessionCall)
include h

/-- The stages start without writing to the sink. -/
theorem sessionView_start : c.sessionView direction none sink ctx calls =
    .play direction ⟨sink, .done, direction.phase⟩
      (.write [] (startStages direction (inOrder direction c.stages) ctx).2.2 ::
        (coder direction).script direction
          (inOrder direction (startStages direction (inOrder direction c.stages) ctx).2.1) calls) := by
  simp only [sessionView, ChainAction.opening, ChainAction.perform, start, h, Bool.false_eq_true,
    ↓reduceIte, SessionView.play]
  rcases startStages direction (inOrder direction c.stages) ctx with ⟨ctx', stages, _ | e⟩
  · exact (serves direction).follow_eq_play _ _ _ _
  · exact (serves direction).follow_failed _ _ _

/-- A one-shot call is a start, a block and an end. It leaves no session open for other calls. -/
theorem sessionView_oneShot (data : Bytes) : c.sessionView direction (some data) sink ctx calls =
    c.sessionView direction none sink ctx [.block direction data, .finish direction] := by
  rw [sessionView_start h]
  simp only [sessionView, ChainAction.opening, ChainAction.perform, oneShot, start, h,
    Bool.false_eq_true, ↓reduceIte, SessionView.play, Coder.script]
  rcases startStages direction (inOrder direction c.stages) ctx with ⟨ctx', stages, _ | e⟩
  · have hcarry : sink.carry false [] none = (sink, .ok ()) := rfl
    have hblock := (serves direction).block (inOrder direction stages) sink data
    simp only [call] at hblock
    simp only [hcarry, hblock]
    generalize (coder direction).block data (inOrder direction stages) = middle
    rcases sink.carry false middle.spans.toList middle.fault with ⟨t, e | ⟨⟩⟩
    · exact (serves direction).follow_failed _ _ _
    · have hfinish := (serves direction).finish middle.state t
      simp only [call] at hfinish
      simp only [hfinish]
      rcases t.carry true _ _ with ⟨u, e | ⟨⟩⟩
      · exact (serves direction).follow_failed _ _ _
      · exact (serves direction).follow_idle _ _ _
  · exact (serves direction).follow_failed _ _ _

/-- A session is its tasks, carried out on the sink. -/
theorem exists_tasks (data? : Option Bytes) : ∃ tasks, ∀ sink,
    c.sessionView direction data? sink ctx calls =
      .play direction ⟨sink, .done, direction.phase⟩ tasks := by
  cases data? with
  | none => exact ⟨_, fun sink => sessionView_start h direction sink ctx calls⟩
  | some data =>
    exact ⟨_, fun sink => (sessionView_oneShot h direction sink ctx calls data).trans
      (sessionView_start h direction sink ctx _)⟩

end

end Chain

/-- No output is lost silently, whatever the sink does. Next to the same calls on a sink that takes
everything, a session of an engine or a chain leaves the sink at any moment with what it held at first
and a part of the output, and after a call that went well with all of it. A write that is not taken
whole or a flush that fails ends the session with just that error, and is the last that the sink sees.
The sink is flushed once, when the last byte of the session is written, and not in any other case. -/
theorem session_keepsOutput :
    (∀ e : Engine, e.phase.isActive = false →
      ∀ (direction : Direction) (parms : Option DecodeParms) (data? : Option Bytes) (sink : Sink)
        (ctx : CryptoContext) (calls : List SessionCall),
        KeepsOutput sink (e.sessionView direction parms data? .buffer ctx calls)
          (e.sessionView direction parms data? sink ctx calls)) ∧
    ∀ c : Chain, c.phase.isActive = false →
      ∀ (direction : Direction) (data? : Option Bytes) (sink : Sink) (ctx : CryptoContext)
        (calls : List SessionCall),
        KeepsOutput sink (c.sessionView direction data? .buffer ctx calls)
          (c.sessionView direction data? sink ctx calls) := by
  constructor
  · intro e he direction parms data? sink ctx calls
    obtain ⟨tasks, htasks⟩ := Engine.exists_tasks he direction parms ctx calls data?
    rw [htasks, htasks]
    exact keepsOutput_play sink direction tasks
  · intro c hc direction data? sink ctx calls
    obtain ⟨tasks, htasks⟩ := Chain.exists_tasks hc direction ctx calls data?
    rw [htasks, htasks]
    exact keepsOutput_play sink direction tasks

theorem session_keepsOutput_short :
    let sink : Sink := { policy := ⟨fun _ _ _ => .ok 1, fun _ => .ok (), false⟩, held := #[9] }
    let calls : List SessionCall := [.block .encode [1, 2, 2], .finish .encode]
    let e : Engine := { codec := .runLength {} }
    let c : Chain := .ofSetup [(.asciiHex {}, none)]
    (e.sessionView .encode none none sink {} calls).reply.error? = some (.shortWrite 2 1) ∧
      KeepsOutput sink (e.sessionView .encode none none .buffer {} calls)
        (e.sessionView .encode none none sink {} calls) ∧
      (c.sessionView .encode none sink {} calls).reply.error? = some (.shortWrite 6 1) ∧
      KeepsOutput sink (c.sessionView .encode none .buffer {} calls)
        (c.sessionView .encode none sink {} calls) := by
  intro sink calls e c
  obtain ⟨hengine, hchain⟩ := session_keepsOutput
  exact ⟨rfl, hengine e rfl .encode none none sink {} calls,
    rfl, hchain c rfl .encode none sink {} calls⟩

end PdfStream
