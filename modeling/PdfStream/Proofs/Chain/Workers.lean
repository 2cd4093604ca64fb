import PdfStream.Proofs.Chain.Session
import PdfStream.Proofs.Codec.Faults

/-!
The codecs of a chain at work, without engines around them. As long as every engine is asked for what
its phase allows, what comes through the stages, and the first error there is, are those of the bare
codecs.
-/
namespace PdfStream

/-- A codec at its place in a chain. -/
structure Worker where
  codec : Codec
  parms : Option DecodeParms
  /-- Written and not yet handed on. -/
  ready : Bytes := []

namespace Worker

/-- The workers in the order they run, or back in encode order. -/
def inOrder (direction : Direction) (workers : List Worker) : List Worker :=
  match direction with
  | .encode => workers
  | .decode => workers.reverse

/-- Begins, and keeps what the codec writes for the first block. -/
def start (direction : Direction) (w : Worker) (ctx : CryptoContext) :
    CryptoContext × Worker × Option Error :=
  let parms := match direction with
    | .encode => none
    | .decode => w.parms
  let (ctx, step) := w.codec.start direction ctx parms
  (ctx, { w with codec := step.state, ready := step.bytes }, step.fault)

def startAll (direction : Direction) :
    List Worker → CryptoContext → CryptoContext × List Worker × Option Error
  | [], ctx => (ctx, [], none)
  | w :: workers, ctx =>
    match w.start direction ctx with
    | (ctx, w, some e) => (ctx, w :: workers, some e)
    | (ctx, w, none) =>
      let (ctx, workers, error) := startAll direction workers ctx
      (ctx, w :: workers, error)

/-- Hands on what there is, if the step has no fault. -/
def emit (w : Worker) (step : Step Codec) : Worker × Except Error Bytes :=
  ({ w with codec := step.state, ready := [] },
    match step.fault with
    | some e => .error e
    | none => .ok (w.ready ++ step.bytes))

def block (direction : Direction) (w : Worker) (data : Bytes) : Worker × Except Error Bytes :=
  w.emit (w.codec.block direction data)

def finish (direction : Direction) (w : Worker) (data : Bytes) : Worker × Except Error Bytes :=
  w.emit ((w.codec.block direction data).andThen (·.finish direction))

/-- Hands data from worker to worker, up to the first error. -/
def passOn (work : Worker → Bytes → Worker × Except Error Bytes) :
    Bytes → List Worker → List Worker × Except Error Bytes
  | data, [] => ([], .ok data)
  | data, w :: workers =>
    match work w data with
    | (w, .error e) => (w :: workers, .error e)
    | (w, .ok out) =>
      let (workers, result) := passOn work out workers
      (w :: workers, result)

end Worker

/-- Takes what a chain puts out in one call, and is flushed if asked. -/
def Sink.receive (s : Sink) (flush : Bool) (out : Bytes) : Sink × Except Error Unit :=
  match s.put out with
  | (s, .error e) => (s, .error e)
  | (s, .ok ()) => if flush then s.flush else (s, .ok ())

/-- Where workers and sink stand after a call, and the first error there was. -/
structure Work where
  ctx : CryptoContext
  workers : List Worker
  sink : Sink
  result : Except Error Unit

namespace Work

/-- Goes on unless there was an error. -/
def andThen (k : Work) (f : CryptoContext → List Worker → Sink → Work) : Work :=
  match k.result with
  | .error _ => k
  | .ok () => f k.ctx k.workers k.sink

def start (direction : Direction) (ctx : CryptoContext) (workers : List Worker) (sink : Sink) :
    Work :=
  let (ctx, workers, error) := Worker.startAll direction (Worker.inOrder direction workers) ctx
  ⟨ctx, Worker.inOrder direction workers, sink,
    match error with
    | some e => .error e
    | none => .ok ()⟩

/-- Sends data through the workers and what comes out to the sink. -/
def send (direction : Direction) (flush : Bool)
    (work : Worker → Bytes → Worker × Except Error Bytes) (data : Bytes) (ctx : CryptoContext)
    (workers : List Worker) (sink : Sink) : Work :=
  match Worker.passOn work data (Worker.inOrder direction workers) with
  | (workers, .error e) => ⟨ctx, Worker.inOrder direction workers, sink, .error e⟩
  | (workers, .ok out) =>
    let (sink, result) := sink.receive flush out
    ⟨ctx, Worker.inOrder direction workers, sink, result⟩

def block (direction : Direction) (data : Bytes) : CryptoContext → List Worker → Sink → Work :=
  send direction false (Worker.block direction) data

def finish (direction : Direction) : CryptoContext → List Worker → Sink → Work :=
  send direction true (Worker.finish direction) []

end Work

namespace Stage

/-- The stage without its engine. -/
def worker (s : Stage) : Worker := ⟨s.engine.codec, s.parms, s.engine.session.held⟩

/-- The engine has an open session on a buffer of its own. -/
def IsBusy (direction : Direction) (s : Stage) : Prop :=
  ∃ sink, s.engine.session = .active direction sink ∧ sink.IsBuffer

/-- An engine without a session begins as its codec does. -/
theorem start_worker {s : Stage} (h : s.engine.phase.isActive = false) (direction : Direction)
    (ctx : CryptoContext) :
    (∃ ctx' engine w e sink,
      s.engine.start direction .buffer (s.parmsFor direction) ctx = (ctx', engine, .broken e sink) ∧
      s.worker.start direction ctx = (ctx', w, some e)) ∨
    ∃ ctx' engine,
      s.engine.start direction .buffer (s.parmsFor direction) ctx = (ctx', engine, .done) ∧
      ({ s with engine } : Stage).IsBusy direction ∧
      s.worker.start direction ctx = (ctx', ({ s with engine } : Stage).worker, none) := by
  obtain ⟨begun, hbegun⟩ : ∃ begun, begun =
      s.engine.codec.start direction ctx (s.parmsFor direction) := ⟨_, rfl⟩
  have hstart : s.worker.start direction ctx =
      (begun.1, ⟨begun.2.state, s.parms, begun.2.bytes⟩, begun.2.fault) := by
    rw [hbegun]
    cases direction <;> rfl
  rw [hstart, Engine.start_of_inactive h]
  simp only [EngineAction.outcome, EngineAction.work, ← hbegun]
  cases hfault : begun.2.fault with
  | some e =>
    obtain ⟨t, hcarry⟩ := Sink.carryOut_of_fault (s := .buffer) rfl hfault false
    left
    rw [hcarry]
    exact ⟨_, _, _, e, some t, rfl, rfl⟩
  | none =>
    obtain ⟨t, hcarry, ht, hcontent⟩ := Sink.carryOut_of_no_fault (s := .buffer) rfl hfault false
    have hheld : t.content = begun.2.bytes := hcontent
    right
    rw [hcarry]
    refine ⟨_, _, rfl, ⟨t, rfl, ht⟩, ?_⟩
    simp [Stage.worker, EngineAction.settled, Session.held_active, hheld]

end Stage

namespace Worker

theorem emit_of_fault {w : Worker} {step : Step Codec} {e : Error} (h : step.fault = some e) :
    w.emit step = ({ w with codec := step.state, ready := [] }, .error e) := by
  simp only [emit, h]

theorem emit_of_no_fault {w : Worker} {step : Step Codec} (h : step.fault = none) :
    w.emit step = ({ w with codec := step.state, ready := [] }, .ok (w.ready ++ step.bytes)) := by
  simp only [emit, h]

section
variable {work : Worker → Bytes → Worker × Except Error Bytes} {w w' : Worker} {data : Bytes}
  {workers : List Worker}

theorem passOn_of_error {e : Error} (h : work w data = (w', .error e)) :
    passOn work data (w :: workers) = (w' :: workers, .error e) := by
  rw [passOn, h]

theorem passOn_of_ok {out : Bytes} (h : work w data = (w', .ok out)) {workers' : List Worker}
    {result : Except Error Bytes} (hrest : passOn work out workers = (workers', result)) :
    passOn work data (w :: workers) = (w' :: workers', result) := by
  rw [passOn, h]
  dsimp only
  rw [hrest]

end

end Worker

namespace Chain
variable {direction : Direction} {stages : List Stage}

def workers (c : Chain) : List Worker := c.stages.map Stage.worker

/-- On stages with `P`, the work of an engine comes to what that of its codec alone comes to, and
leaves a stage with `Q` unless there is an error. -/
def Follows (P Q : Stage → Prop) (work : Engine → Bytes → Engine × Except Error Bytes)
    (bare : Worker → Bytes → Worker × Except Error Bytes) : Prop :=
  ∀ s data, P s →
    (∃ engine w e, work s.engine data = (engine, .error e) ∧ bare s.worker data = (w, .error e)) ∨
    ∃ engine out, work s.engine data = (engine, .ok out) ∧ Q { s with engine } ∧
      bare s.worker data = (({ s with engine } : Stage).worker, .ok out)

theorem pumpEngine_follows (direction : Direction) :
    Follows (Stage.IsBusy direction) (Stage.IsBusy direction) (pumpEngine direction)
      (Worker.block direction) := by
  rintro ⟨⟨c, session⟩, parms⟩ data ⟨sink, rfl, hsink⟩
  simp only [Worker.block, Stage.worker]
  cases hfault : (c.block direction data).fault with
  | some e =>
    obtain ⟨t, hblock⟩ := Engine.block_of_fault hsink hfault
    left
    refine ⟨⟨(c.block direction data).state, .failed⟩, _, e, ?_, Worker.emit_of_fault hfault⟩
    simp only [pumpEngine, hblock, Reply.error?]
  | none =>
    obtain ⟨t, hblock, ht, hcontent⟩ := Engine.block_of_no_fault hsink hfault
    right
    refine ⟨⟨(c.block direction data).state, .active direction { t with held := #[] }⟩, t.content,
      ?_, ⟨_, rfl, ht⟩, ?_⟩
    · simp only [pumpEngine, hblock, Reply.error?]
      rfl
    · rw [Worker.emit_of_no_fault hfault, hcontent]
      rfl

theorem finishEngine_follows (direction : Direction) :
    Follows (Stage.IsBusy direction) (·.engine.session = .idle) (finishEngine direction)
      (Worker.finish direction) := by
  rintro ⟨⟨c, session⟩, parms⟩ data ⟨sink, rfl, hsink⟩
  simp only [Worker.finish, Stage.worker]
  cases hfault : (c.block direction data).fault with
  | some e =>
    obtain ⟨t, hblock⟩ := Engine.block_of_fault hsink hfault
    left
    rw [Step.andThen_of_fault hfault]
    refine ⟨⟨(c.block direction data).state, .failed⟩, _, e, ?_, Worker.emit_of_fault hfault⟩
    simp only [finishEngine, hblock, Reply.error?]
  | none =>
    obtain ⟨t, hblock, ht, hcontent⟩ := Engine.block_of_no_fault hsink hfault
    obtain ⟨last, hlast⟩ : ∃ last, last = (c.block direction data).state.finish direction := ⟨_, rfl⟩
    have hend := Step.fault_andThen hfault (·.finish direction)
    have hstate := Step.state_andThen hfault (·.finish direction)
    have hbytes := Step.bytes_andThen hfault (·.finish direction)
    rw [← hlast] at hend hstate hbytes
    cases hfault' : last.fault with
    | some e =>
      obtain ⟨u, hfinish⟩ := Engine.finish_of_fault ht (hlast ▸ hfault')
      left
      refine ⟨⟨last.state, .failed⟩, _, e, ?_, Worker.emit_of_fault (hend.trans hfault')⟩
      simp only [finishEngine, hblock, Reply.error?, hfinish, Reply.output, hlast]
    | none =>
      obtain ⟨u, hfinish, hall⟩ := Engine.finish_of_no_fault ht (hlast ▸ hfault')
      right
      refine ⟨⟨last.state, .idle⟩, u.content, ?_, rfl, ?_⟩
      · simp only [finishEngine, hblock, Reply.error?, hfinish, Reply.output, hlast]
      · rw [Worker.emit_of_no_fault (hend.trans hfault'), hstate, hbytes, hall, hcontent, hlast,
          List.append_assoc]
        rfl

/-- By induction on the stages: they hand on what their codecs hand on, up to the first error. -/
theorem relay_follows {P Q : Stage → Prop} {work : Engine → Bytes → Engine × Except Error Bytes}
    {bare : Worker → Bytes → Worker × Except Error Bytes} (h : Follows P Q work bare)
    (hstages : ∀ s ∈ stages, P s) (data : Bytes) :
    (∃ stages' workers e, relay work data stages = (stages', .error e) ∧
      Worker.passOn bare data (stages.map Stage.worker) = (workers, .error e)) ∨
    ∃ stages' out, relay work data stages = (stages', .ok out) ∧ (∀ s ∈ stages', Q s) ∧
      Worker.passOn bare data (stages.map Stage.worker) = (stages'.map Stage.worker, .ok out) := by
  induction stages generalizing data with
  | nil => exact .inr ⟨[], data, rfl, by simp, rfl⟩
  | cons s stages ih =>
    obtain ⟨hs, hrest⟩ := List.forall_mem_cons.1 hstages
    rcases h s data hs with ⟨engine, w, e, hwork, hbare⟩ | ⟨engine, out, hwork, hq, hbare⟩
    · exact .inl ⟨_, _, e, relay_of_error hwork, Worker.passOn_of_error hbare⟩
    · rcases ih hrest out with ⟨stages', workers, e, hrelay, hpass⟩ |
        ⟨stages', out', hrelay, hqs, hpass⟩
      · exact .inl ⟨_, _, e, relay_of_ok hwork hrelay, Worker.passOn_of_ok hbare hpass⟩
      · exact .inr ⟨_, out', relay_of_ok hwork hrelay, List.forall_mem_cons.2 ⟨hq, hqs⟩,
          Worker.passOn_of_ok hbare hpass⟩

/-- Stages at rest begin as their codecs do, up to the first error. -/
theorem startStages_follows (hstages : ∀ s ∈ stages, s.engine.phase.isActive = false)
    (direction : Direction) (ctx : CryptoContext) :
    (∃ ctx' stages' workers e, startStages direction stages ctx = (ctx', stages', some e) ∧
      Worker.startAll direction (stages.map Stage.worker) ctx = (ctx', workers, some e)) ∨
    ∃ ctx' stages', startStages direction stages ctx = (ctx', stages', none) ∧
      (∀ s ∈ stages', s.IsBusy direction) ∧
      Worker.startAll direction (stages.map Stage.worker) ctx =
        (ctx', stages'.map Stage.worker, none) := by
  induction stages generalizing ctx with
  | nil => exact .inr ⟨ctx, [], rfl, by simp, rfl⟩
  | cons s stages ih =>
    obtain ⟨hs, hrest⟩ := List.forall_mem_cons.1 hstages
    simp only [List.map_cons, Worker.startAll]
    rcases Stage.start_worker hs direction ctx with ⟨ctx', engine, w, e, sink, hstart, hbare⟩ |
      ⟨ctx', engine, hstart, hbusy, hbare⟩
    · left
      rw [hbare]
      exact ⟨_, _, _, e, startStages_of_error hstart rfl, rfl⟩
    · rcases ih hrest ctx' with ⟨ctx'', stages', workers, e, hstages, hall⟩ |
        ⟨ctx'', stages', hstages, hbusys, hall⟩
      · left
        rw [hbare]
        simp only [hall]
        exact ⟨_, _, _, e, startStages_of_done hstart hstages, rfl⟩
      · right
        rw [hbare]
        simp only [hall]
        exact ⟨_, _, startStages_of_done hstart hstages, List.forall_mem_cons.2 ⟨hbusy, hbusys⟩, rfl⟩

end Chain

/-- The sink has errors of its own only. -/
structure Sink.IsPlain (s : Sink) : Prop where
  write : ∀ held calls offered, ErrsOnly Error.IsOwn (s.policy.onWrite held calls offered)
  flush : ∀ flushes, ErrsOnly Error.IsOwn (s.policy.onFlush flushes)

namespace Sink
variable {s t : Sink}

theorem IsPlain.of_precedes (h : s.IsPlain) (hlater : s.Precedes t) : t.IsPlain := by
  obtain ⟨hpolicy, -⟩ := hlater
  constructor
  · rw [hpolicy]
    exact h.write
  · rw [hpolicy]
    exact h.flush

theorem IsPlain.isOwn_of_causes (h : s.IsPlain) {e : Error} (he : s.Causes e) : e.IsOwn := by
  cases he with
  | write answer => exact h.write _ _ _ e answer
  | flush answer => exact h.flush _ e answer
  | short expected written => exact id
  | stuck => exact id

theorem IsPlain.receive (h : s.IsPlain) (flush : Bool) (out : Bytes) :
    (s.receive flush out).1.IsPlain ∧ ErrsOnly Error.IsOwn (s.receive flush out).2 := by
  have hlater := s.precedes_put out
  unfold Sink.receive
  revert hlater
  rcases hput : s.put out with ⟨t, e | ⟨⟩⟩
  · intro hlater
    exact ⟨h.of_precedes hlater, errsOnly_error (h.isOwn_of_causes (causes_of_put hput))⟩
  · intro hlater
    have ht := h.of_precedes hlater
    dsimp only
    split
    · exact ⟨ht.of_precedes t.precedes_flush, ht.flush _⟩
    · exact ⟨ht, errsOnly_ok _⟩

end Sink

namespace Worker

theorem errsOnly_emit (w : Worker) {step : Step Codec} (h : step.FaultsOnly Error.IsOwn) :
    ErrsOnly Error.IsOwn (w.emit step).2 := by
  unfold emit
  dsimp only
  split
  next e he => exact errsOnly_error (h e he)
  next => exact errsOnly_ok _

theorem errsOnly_block (direction : Direction) (w : Worker) (data : Bytes) :
    ErrsOnly Error.IsOwn (w.block direction data).2 :=
  w.errsOnly_emit (w.codec.faultsOnly_block direction data)

theorem errsOnly_finish (direction : Direction) (w : Worker) (data : Bytes) :
    ErrsOnly Error.IsOwn (w.finish direction data).2 :=
  w.errsOnly_emit ((w.codec.faultsOnly_block direction data).andThen
    fun c => c.faultsOnly_finish direction)

theorem errsOnly_passOn {work : Worker → Bytes → Worker × Except Error Bytes}
    (h : ∀ w data, ErrsOnly Error.IsOwn (work w data).2) (data : Bytes) (workers : List Worker) :
    ErrsOnly Error.IsOwn (passOn work data workers).2 := by
  induction workers generalizing data with
  | nil => exact errsOnly_ok _
  | cons w workers ih =>
    have hown := h w data
    rw [passOn]
    revert hown
    rcases work w data with ⟨w', e | out⟩
    · exact id
    · exact fun _ => ih out

theorem startAll_isOwn (direction : Direction) (workers : List Worker) (ctx : CryptoContext)
    {e : Error} (h : (startAll direction workers ctx).2.2 = some e) : e.IsOwn := by
  induction workers generalizing ctx with
  | nil => cases h
  | cons w workers ih =>
    have hown : ∀ e, (w.start direction ctx).2.2 = some e → e.IsOwn :=
      w.codec.faultsOnly_start direction ctx _
    rw [startAll] at h
    rcases hstart : w.start direction ctx with ⟨ctx', w', _ | e'⟩ <;> rw [hstart] at h hown
    · exact ih ctx' h
    · exact hown e h

end Worker

namespace Work

/-- Neither workers nor sink have refused the call. -/
def IsOwn (k : Work) : Prop := k.sink.IsPlain ∧ ErrsOnly Error.IsOwn k.result

variable {sink : Sink}

theorem IsOwn.andThen {k : Work} (h : k.IsOwn) {f : CryptoContext → List Worker → Sink → Work}
    (hf : ∀ ctx workers sink, sink.IsPlain → (f ctx workers sink).IsOwn) : (k.andThen f).IsOwn := by
  unfold Work.andThen
  split
  · exact h
  · exact hf _ _ _ h.1

theorem isOwn_start (h : sink.IsPlain) (direction : Direction) (ctx : CryptoContext)
    (workers : List Worker) : (start direction ctx workers sink).IsOwn := by
  have hown {e : Error} := Worker.startAll_isOwn (e := e) direction
    (Worker.inOrder direction workers) ctx
  unfold start
  rcases hall : Worker.startAll direction (Worker.inOrder direction workers) ctx with
    ⟨ctx', workers', _ | e⟩
  · exact ⟨h, errsOnly_ok _⟩
  · rw [hall] at hown
    exact ⟨h, errsOnly_error (hown rfl)⟩

theorem isOwn_send {work : Worker → Bytes → Worker × Except Error Bytes}
    (hwork : ∀ w data, ErrsOnly Error.IsOwn (work w data).2) (h : sink.IsPlain)
    (direction : Direction) (flush : Bool) (data : Bytes) (ctx : CryptoContext)
    (workers : List Worker) : (send direction flush work data ctx workers sink).IsOwn := by
  have hpass := Worker.errsOnly_passOn hwork data (Worker.inOrder direction workers)
  unfold send
  revert hpass
  rcases Worker.passOn work data (Worker.inOrder direction workers) with ⟨workers', e | out⟩
  · intro hpass
    exact ⟨h, errsOnly_error (hpass e rfl)⟩
  · intro _
    exact h.receive flush out

theorem isOwn_block (h : sink.IsPlain) (direction : Direction) (data : Bytes) (ctx : CryptoContext)
    (workers : List Worker) : (block direction data ctx workers sink).IsOwn :=
  isOwn_send (Worker.errsOnly_block direction) h direction false data ctx workers

theorem isOwn_finish (h : sink.IsPlain) (direction : Direction) (ctx : CryptoContext)
    (workers : List Worker) : (finish direction ctx workers sink).IsOwn :=
  isOwn_send (Worker.errsOnly_finish direction) h direction true [] ctx workers

end Work

end PdfStream
