import PdfStream.Proofs.Engine.Buffered
import PdfStream.Proofs.Engine.History
import PdfStream.Proofs.Sink.Delivery

/-!
A session while its data come in. As long as nothing goes wrong, the sink holds what it held before
and all that the codec has put out so far, whatever the sink is.
-/
namespace PdfStream

/-- A sink takes a step from its beginning, and all of it if nothing fails. -/
theorem Sink.content_carryOut (s : Sink) (flush : Bool) (step : Step Codec) :
    ∃ taken, (s.carryOut flush step).1.content = s.content ++ taken ∧ taken <+: step.bytes ∧
      ((s.carryOut flush step).2 = .ok () → taken = step.bytes) := by
  unfold carryOut
  rcases s.deliver_spec step.spans.toList with
    ⟨given, t, hdeliver, hgiven, hall⟩ | ⟨given, u, span, e, t, hdeliver, hgiven, hrejects, hpart⟩
  · have hcontent : t.content = s.content ++ step.bytes := by
      rw [hgiven.content, hall]
      rfl
    refine ⟨step.bytes, ?_, List.prefix_rfl, fun _ => rfl⟩
    rw [hdeliver]
    cases step.fault with
    | some e => exact hcontent
    | none => cases flush <;> exact hcontent
  · obtain ⟨part, hrest, hprefix⟩ := hrejects.content
    refine ⟨given.flatten ++ part, ?_, ?_, ?_⟩
    · rw [hdeliver]
      dsimp only
      rw [hrest, hgiven.content, List.append_assoc]
    · exact ((List.prefix_append_right_inj _).2 hprefix).trans hpart
    · rw [hdeliver]
      exact nofun

namespace Engine

/-- Feeds block after block, up to the first call that is not done. -/
def feed (direction : Direction) (e : Engine) : List Bytes → Engine × Reply
  | [] => (e, .done)
  | data :: blocks =>
    match e.block direction data with
    | (e, .done) => e.feed direction blocks
    | outcome => outcome

section
variable {c : Codec} {direction : Direction} {sink : Sink} {e e₁ e₂ : Engine}

theorem block_of_done {data : Bytes}
    (h : (⟨c, .active direction sink⟩ : Engine).block direction data = (e₁, .done)) :
    ∃ t, e₁ = ⟨(c.block direction data).state, .active direction t⟩ ∧
      (c.block direction data).fault = none ∧
      t.content = sink.content ++ (c.block direction data).bytes := by
  obtain ⟨taken, hcontent, -, hall⟩ := sink.content_carryOut false (c.block direction data)
  rw [block_active c direction sink data {}] at h
  simp only [EngineAction.outcome, EngineAction.work] at h
  rcases hcarry : sink.carryOut false (c.block direction data) with ⟨t, error | ⟨⟩⟩
  · rw [hcarry] at h
    cases h
  · rw [hcarry] at h hcontent hall
    cases h
    exact ⟨t, rfl, Sink.fault_of_carryOut hcarry, by rw [hcontent, hall rfl]⟩

/-- By induction on the blocks. -/
theorem feed_of_done {blocks : List Bytes}
    (h : (⟨c, .active direction sink⟩ : Engine).feed direction blocks = (e₂, .done)) :
    ∃ s out t, (Step.run (fun c data => c.block direction data) c blocks).Yields s out ∧
      e₂ = ⟨s, .active direction t⟩ ∧ t.content = sink.content ++ out := by
  induction blocks generalizing c sink with
  | nil =>
    cases h
    exact ⟨c, [], sink, Step.yields_quiet c, rfl, (List.append_nil _).symm⟩
  | cons data blocks ih =>
    rw [feed] at h
    split at h
    next e₁ hblock =>
      obtain ⟨t, rfl, hfault, hcontent⟩ := block_of_done hblock
      obtain ⟨s, out, u, hrun, hlast, hheld⟩ := ih h
      refine ⟨s, (c.block direction data).bytes ++ out, u, ?_, hlast, ?_⟩
      · rw [Step.run_cons]
        exact (Step.yields_of_no_fault hfault).andThen hrun
      · rw [hheld, hcontent, List.append_assoc]
    next hnot => exact absurd h (hnot e₂)

/-- On a buffer only the codec can stop the session. -/
theorem feed_of_no_fault (hsink : sink.IsBuffer) {blocks : List Bytes}
    (h : (Step.run (fun c data => c.block direction data) c blocks).fault = none) :
    ∃ e₂, (⟨c, .active direction sink⟩ : Engine).feed direction blocks = (e₂, .done) := by
  induction blocks generalizing c sink with
  | nil => exact ⟨_, rfl⟩
  | cons data blocks ih =>
    rw [Step.run_cons] at h
    cases hfault : (c.block direction data).fault with
    | some error =>
      rw [Step.andThen_of_fault hfault, hfault] at h
      cases h
    | none =>
      obtain ⟨t, hblock, ht, -⟩ := block_of_no_fault hsink hfault
      rw [Step.fault_andThen hfault] at h
      rw [feed, hblock]
      exact ih ht h

/-- A begin that went well, and the blocks after it. -/
theorem feed_of_start {parms : Option DecodeParms} {ctx ctx' : CryptoContext}
    (h : e.start direction sink parms ctx = (ctx', e₁, .done)) :
    (e.codec.start direction ctx parms).2.fault = none ∧ ∀ blocks : List Bytes,
      (sink.IsBuffer → (e.codec.fed direction ctx parms blocks).fault = none →
        ∃ e₂, e₁.feed direction blocks = (e₂, .done)) ∧
      ∀ e₂, e₁.feed direction blocks = (e₂, .done) →
        ∃ s out t, (e.codec.fed direction ctx parms blocks).Yields s out ∧
          e₂ = ⟨s, .active direction t⟩ ∧ t.content = sink.content ++ out := by
  have hphase : e.phase.isActive = false := by
    cases hphase : e.phase.isActive with
    | false => rfl
    | true =>
      simp only [start, hphase, ↓reduceIte, refuse] at h
      cases h
  obtain ⟨taken, hcontent, -, hall⟩ :=
    sink.content_carryOut false (e.codec.start direction ctx parms).2
  rw [start_of_inactive hphase] at h
  simp only [EngineAction.outcome, EngineAction.work] at h
  rcases hcarry : sink.carryOut false (e.codec.start direction ctx parms).2 with ⟨t, error | ⟨⟩⟩
  · rw [hcarry] at h
    cases h
  rw [hcarry] at h hcontent hall
  cases h
  cases hall rfl
  have hfault := Sink.fault_of_carryOut hcarry
  refine ⟨hfault, fun blocks => ⟨fun hsink hfed => ?_, fun e₂ hfeed => ?_⟩⟩
  · rw [Codec.fed, Step.fault_andThen hfault] at hfed
    obtain ⟨u, hu, hbuffer, -⟩ := Sink.carryOut_of_no_fault hsink hfault false
    rw [hcarry] at hu
    cases hu
    exact feed_of_no_fault hbuffer hfed
  · obtain ⟨s, out, u, hrun, hlast, hheld⟩ := feed_of_done hfeed
    refine ⟨s, (e.codec.start direction ctx parms).2.bytes ++ out, u, ?_, hlast, ?_⟩
    · exact (Step.yields_of_no_fault hfault).andThen hrun
    · rw [hheld, hcontent, List.append_assoc]

/-- What the end of a session adds is the codec's. -/
theorem content_of_finish {t : Sink}
    (h : ((⟨c, .active direction sink⟩ : Engine).finish direction).2.sink? = some t) :
    ∃ taken, t.content = sink.content ++ taken ∧ taken <+: (c.finish direction).bytes := by
  obtain ⟨taken, hcontent, hprefix, -⟩ := sink.content_carryOut true (c.finish direction)
  rw [finish_active c direction sink {}] at h
  simp only [EngineAction.outcome, EngineAction.work] at h
  rcases hcarry : sink.carryOut true (c.finish direction) with ⟨u, error | ⟨⟩⟩ <;>
    rw [hcarry] at h hcontent <;> cases h <;> exact ⟨taken, hcontent, hprefix⟩

end
end Engine
end PdfStream
