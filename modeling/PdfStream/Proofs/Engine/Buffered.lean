import PdfStream.Chain
import PdfStream.Proofs.Codec
import PdfStream.Proofs.Engine.Lifecycle

/-!
Engines that write to a buffer, as the stages of a chain do. Only the codec can fail there, and what
the buffer holds together with what the session still makes of its data is never lost.
-/
namespace PdfStream

theorem Sink.carryOut_of_fault {s : Sink} (h : s.IsBuffer) {step : Step Codec} {e : Error}
    (hfault : step.fault = some e) (flush : Bool) :
    ∃ t, s.carryOut flush step = (t, .error e) := by
  obtain ⟨t, hdeliver, -, -⟩ := deliver_of_isBuffer h step.spans.toList
  refine ⟨t, ?_⟩
  simp only [carryOut, hdeliver, hfault]

theorem Sink.carryOut_of_no_fault {s : Sink} (h : s.IsBuffer) {step : Step Codec}
    (hfault : step.fault = none) (flush : Bool) :
    ∃ t, s.carryOut flush step = (t, .ok ()) ∧ t.IsBuffer ∧
      t.content = s.content ++ step.bytes := by
  obtain ⟨t, hdeliver, ht, hcontent⟩ := deliver_of_isBuffer h step.spans.toList
  obtain ⟨u, hflush, hu, hsame⟩ := flush_of_isBuffer ht
  cases flush with
  | false =>
    refine ⟨t, ?_, ht, hcontent⟩
    simp [carryOut, hdeliver, hfault]
  | true =>
    refine ⟨u, ?_, hu, hsame.trans hcontent⟩
    simp [carryOut, hdeliver, hfault, hflush]

/-- What the bound sink holds. -/
def Session.held (s : Session) : Bytes :=
  match s.sink? with
  | some sink => sink.content
  | none => []

theorem Session.held_active (direction : Direction) (sink : Sink) :
    (active direction sink).held = sink.content := rfl

namespace Engine

/-- A session on a buffer is open. -/
def IsOpen (direction : Direction) (e : Engine) : Prop :=
  ∃ sink, e.session = .active direction sink ∧ sink.IsBuffer

/-- What comes of the open session goes by these data alone, not by their blocks. -/
def IsSteady (direction : Direction) (e : Engine) (data : Bytes) : Prop :=
  (Codec.coder direction).IsSteady e.codec data

/-- What the sink will hold in the end if `data` are still to come. -/
def rest (direction : Direction) (e : Engine) (data : Bytes) : Option Bytes :=
  ((Codec.coder direction).rest e.codec data).map (e.session.held ++ ·)

/-- What starting an engine on an empty buffer comes to: a fault that no data would have averted, or
a session that makes of its data what the codec alone makes of them. -/
theorem start_spec {e : Engine} (h : e.phase.isActive = false) (direction : Direction)
    (parms : Option DecodeParms) (ctx : CryptoContext) :
    (∃ e' error sink, e.start direction .buffer parms ctx =
        ((e.codec.start direction ctx parms).1, e', .broken error sink) ∧
      ∀ data, (e.codec.oneShot direction ctx parms data).toOption = none) ∨
    ∃ e', e.start direction .buffer parms ctx =
        ((e.codec.start direction ctx parms).1, e', .done) ∧
      e'.IsOpen direction ∧ e'.codec.fresh = e.codec.fresh ∧
      (∀ data, (e.codec.oneShot direction ctx parms data).toOption = e'.rest direction data) ∧
      ∀ data, (direction = .decode → e.codec.ReadsCalm parms data) →
        e'.IsSteady direction data := by
  cases hfault : (e.codec.start direction ctx parms).2.fault with
  | some error =>
    obtain ⟨t, hcarry⟩ := Sink.carryOut_of_fault (s := .buffer) rfl hfault false
    left
    refine ⟨⟨(e.codec.start direction ctx parms).2.state, .failed⟩, error, some t, ?_,
      ?_⟩
    · rw [start_of_inactive h]
      simp only [EngineAction.outcome, EngineAction.work, hcarry]
    · intro data
      rw [Codec.oneShot_eq_session, Codec.session, Step.output?_andThen,
        Step.output?_of_fault hfault, Option.bind_none]
  | none =>
    obtain ⟨t, hcarry, ht, hcontent⟩ := Sink.carryOut_of_no_fault (s := .buffer) rfl hfault false
    right
    refine ⟨⟨(e.codec.start direction ctx parms).2.state, .active direction t⟩, ?_, ⟨t, rfl, ht⟩,
      e.codec.fresh_start direction ctx parms, ?_,
      fun data hcalm => Codec.isSteady_start hcalm hfault⟩
    · rw [start_of_inactive h]
      simp only [EngineAction.outcome, EngineAction.work, hcarry]
      rfl
    · intro data
      have hheld : t.content = (e.codec.start direction ctx parms).2.bytes := hcontent
      rw [rest, Session.held_active, hheld, Codec.oneShot_eq_session, Codec.session,
        Step.output?_andThen, Step.output?_of_no_fault hfault]
      rfl

section
variable {c : Codec} {direction : Direction} {sink : Sink} {data : Bytes} {error : Error}

theorem block_of_fault (hsink : sink.IsBuffer)
    (hfault : (c.block direction data).fault = some error) :
    ∃ t, (⟨c, .active direction sink⟩ : Engine).block direction data =
      (⟨(c.block direction data).state, .failed⟩, .broken error (some t)) := by
  obtain ⟨t, hcarry⟩ := Sink.carryOut_of_fault hsink hfault false
  refine ⟨t, ?_⟩
  rw [block_active c direction sink data {}]
  simp only [EngineAction.outcome, EngineAction.work, hcarry]

theorem block_of_no_fault (hsink : sink.IsBuffer)
    (hfault : (c.block direction data).fault = none) :
    ∃ t, (⟨c, .active direction sink⟩ : Engine).block direction data =
        (⟨(c.block direction data).state, .active direction t⟩, .done) ∧
      t.IsBuffer ∧ t.content = sink.content ++ (c.block direction data).bytes := by
  obtain ⟨t, hcarry, ht, hcontent⟩ := Sink.carryOut_of_no_fault hsink hfault false
  refine ⟨t, ?_, ht, hcontent⟩
  rw [block_active c direction sink data {}]
  simp only [EngineAction.outcome, EngineAction.work, hcarry]
  rfl

theorem finish_of_fault (hsink : sink.IsBuffer) (hfault : (c.finish direction).fault = some error) :
    ∃ t, (⟨c, .active direction sink⟩ : Engine).finish direction =
      (⟨(c.finish direction).state, .failed⟩, .broken error (some t)) := by
  obtain ⟨t, hcarry⟩ := Sink.carryOut_of_fault hsink hfault true
  refine ⟨t, ?_⟩
  rw [finish_active c direction sink {}]
  simp only [EngineAction.outcome, EngineAction.work, hcarry]

theorem finish_of_no_fault (hsink : sink.IsBuffer) (hfault : (c.finish direction).fault = none) :
    ∃ t, (⟨c, .active direction sink⟩ : Engine).finish direction =
        (⟨(c.finish direction).state, .idle⟩, .returned t) ∧
      t.content = sink.content ++ (c.finish direction).bytes := by
  obtain ⟨t, hcarry, -, hcontent⟩ := Sink.carryOut_of_no_fault hsink hfault true
  refine ⟨t, ?_, hcontent⟩
  rw [finish_active c direction sink {}]
  simp only [EngineAction.outcome, EngineAction.work, hcarry]
  rfl

end

/-- What pumping a block through an open engine comes to: a fault that no more data would have
averted, or the next part of the output. That is the next part of what comes of all the data where
this goes by the data alone. -/
theorem pump_spec {direction : Direction} {e : Engine} (h : e.IsOpen direction) (data : Bytes) :
    (∃ e' error, Chain.pumpEngine direction e data = (e', .error error) ∧
      ∀ more, e.IsSteady direction (data ++ more) → e.rest direction (data ++ more) = none) ∨
    ∃ e' out, Chain.pumpEngine direction e data = (e', .ok out) ∧
      e'.IsOpen direction ∧ e'.codec.fresh = e.codec.fresh ∧
      ∀ more, e.IsSteady direction (data ++ more) → e'.IsSteady direction more ∧
        e.rest direction (data ++ more) = (e'.rest direction more).map (out ++ ·) := by
  obtain ⟨c, session⟩ := e
  obtain ⟨sink, rfl, hsink⟩ := h
  cases hfault : (c.block direction data).fault with
  | some error =>
    obtain ⟨t, hblock⟩ := block_of_fault hsink hfault
    left
    refine ⟨⟨(c.block direction data).state, .failed⟩, error, ?_, ?_⟩
    · simp only [Chain.pumpEngine, hblock, Reply.error?]
    · intro more hsteady
      have hstep : ((Codec.coder direction).block data c).fault = some error := hfault
      rw [rest, Coder.IsSteady.rest_append hsteady, Step.output?_of_fault hstep, Option.bind_none,
        Option.map_none]
  | none =>
    obtain ⟨t, hblock, ht, hcontent⟩ := block_of_no_fault hsink hfault
    right
    refine ⟨⟨(c.block direction data).state, .active direction { t with held := #[] }⟩,
      t.content, ?_, ⟨_, rfl, ht⟩, c.fresh_block direction data, ?_⟩
    · simp only [Chain.pumpEngine, hblock, Reply.error?]
      rfl
    · intro more hsteady
      have hstep : ((Codec.coder direction).block data c).fault = none := hfault
      refine ⟨Coder.IsSteady.block hsteady hstep, ?_⟩
      rw [rest, rest, Coder.IsSteady.rest_append hsteady, Step.output?_of_no_fault hstep,
        Option.bind_some, Session.held_active, Session.held_active, hcontent, Option.map_map,
        Option.map_map]
      congr 1
      funext out
      simp [Codec.coder, Sink.content]

/-- What ending the session of an open engine after a last block comes to. -/
theorem finish_spec {direction : Direction} {e : Engine} (h : e.IsOpen direction) (data : Bytes) :
    (∃ e' error, Chain.finishEngine direction e data = (e', .error error) ∧
      e.rest direction data = none) ∨
    ∃ e' out, Chain.finishEngine direction e data = (e', .ok out) ∧ e'.session = .idle ∧
      e'.codec.fresh = e.codec.fresh ∧ e.rest direction data = some out := by
  obtain ⟨c, session⟩ := e
  obtain ⟨sink, rfl, hsink⟩ := h
  have hrest := (Codec.coder direction).rest_eq c data
  cases hfault : (c.block direction data).fault with
  | some error =>
    obtain ⟨t, hblock⟩ := block_of_fault hsink hfault
    have hstep : ((Codec.coder direction).block data c).fault = some error := hfault
    rw [Step.output?_of_fault hstep, Option.bind_none] at hrest
    left
    refine ⟨⟨(c.block direction data).state, .failed⟩, error, ?_, ?_⟩
    · simp only [Chain.finishEngine, hblock, Reply.error?]
    · rw [rest, hrest, Option.map_none]
  | none =>
    obtain ⟨t, hblock, ht, hcontent⟩ := block_of_no_fault hsink hfault
    obtain ⟨s, hs⟩ : ∃ s, s = (c.block direction data).state := ⟨_, rfl⟩
    have hfresh : s.fresh = c.fresh := hs ▸ c.fresh_block direction data
    have hstep : ((Codec.coder direction).block data c).fault = none := hfault
    have hstate : ((Codec.coder direction).block data c).state = s := hs.symm
    rw [Step.output?_of_no_fault hstep, Option.bind_some, hstate] at hrest
    rw [← hs] at hblock
    cases hlast : (s.finish direction).fault with
    | some error =>
      obtain ⟨u, hfinish⟩ := finish_of_fault ht hlast
      have hend : ((Codec.coder direction).finish s).fault = some error := hlast
      rw [Step.output?_of_fault hend, Option.map_none] at hrest
      left
      refine ⟨⟨(s.finish direction).state, .failed⟩, error, ?_, ?_⟩
      · simp only [Chain.finishEngine, hblock, Reply.error?, hfinish, Reply.output]
      · rw [rest, hrest, Option.map_none]
    | none =>
      obtain ⟨u, hfinish, hall⟩ := finish_of_no_fault ht hlast
      have hend : ((Codec.coder direction).finish s).fault = none := hlast
      rw [Step.output?_of_no_fault hend, Option.map_some] at hrest
      right
      refine ⟨⟨(s.finish direction).state, .idle⟩, u.content, ?_, rfl,
        (s.fresh_finish direction).trans hfresh, ?_⟩
      · simp only [Chain.finishEngine, hblock, Reply.error?, hfinish, Reply.output]
      · rw [rest, hrest, Option.map_some, Session.held_active, hall, hcontent, List.append_assoc]
        rfl

end Engine
end PdfStream
