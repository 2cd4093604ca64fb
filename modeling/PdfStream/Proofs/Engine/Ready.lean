import PdfStream.Proofs.Codec.Ready
import PdfStream.Proofs.Engine.Buffered
import PdfStream.Proofs.Engine.Invariant

/-!
What may fail in a session. The lifecycle lets no codec work that is not ready, so after a begin on
a buffer encoding goes through and decoding stops only for its data. No error by which a codec
reports a mistake of the program ever comes out of an engine.
-/
namespace PdfStream

theorem Codec.isInvariant_isReady : Codec.IsInvariant Codec.IsReady :=
  ⟨fun direction ctx parms c h => c.isReady_start direction ctx parms h,
    fun _ data _ h _ => isReady_block h data⟩

/-- What goes wrong is the fault of the codec or caused by the sink. -/
theorem Sink.fault_or_causes {s t : Sink} {flush : Bool} {step : Step Codec} {e : Error}
    (h : s.carryOut flush step = (t, .error e)) : step.fault = some e ∨ s.Causes e := by
  have hlater := s.precedes_deliver step.spans.toList
  unfold carryOut at h
  split at h
  next hdeliver =>
    cases h
    exact .inr (causes_of_deliver hdeliver)
  next u hdeliver =>
    rw [hdeliver] at hlater
    split at h
    next hfault =>
      cases h
      exact .inl hfault
    next =>
      split at h
      · exact .inr (hlater.causes (.flush (congrArg Prod.snd h)))
      · cases h

namespace EngineAction

/-- Only the sink can bring an internal error into a call that the phase allows. -/
theorem causes_of_work {ctx : CryptoContext} {c c' : Codec} {sink t : Sink} {a : EngineAction}
    {e : Error} (hiv : c.HasWholeIv)
    (hblock : ∀ direction data, a = .block direction data → c.IsReady direction)
    (hfinish : ∀ direction, a = .finish direction → c.IsReady direction)
    (h : a.work ctx c sink = (c', t, .error e)) (he : e.IsInternal) : sink.Causes e := by
  have hcause {s t : Sink} {flush : Bool} {step : Step Codec} {P : Error → Prop}
      (hfaults : step.FaultsOnly P) (hno : ∀ e, P e → ¬e.IsInternal)
      (hcarry : s.carryOut flush step = (t, .error e)) : s.Causes e :=
    (Sink.fault_or_causes hcarry).resolve_left fun hfault => hno e (hfaults e hfault) he
  cases a with
  | start direction _ parms =>
    exact hcause (Codec.isSetup_start hiv direction ctx parms)
      (fun _ => Error.IsSetup.not_isInternal) (Prod.mk.inj h).2
  | block direction data =>
    exact hcause (Codec.faultsOnly_block_of_isReady (hblock direction data rfl) data)
      (fun _ => Direction.Admits.not_isInternal) (Prod.mk.inj h).2
  | finish direction =>
    exact hcause (Codec.faultsOnly_finish_of_isReady (hfinish direction rfl))
      (fun _ => Direction.Admits.not_isInternal) (Prod.mk.inj h).2
  | oneShot direction _ parms data =>
    have hfirst := sink.precedes_carryOut false (c.start direction ctx parms).2
    simp only [work] at h
    split at h
    next hcarry =>
      cases h
      exact hcause (Codec.isSetup_start hiv direction ctx parms)
        (fun _ => Error.IsSetup.not_isInternal) hcarry
    next u hcarry =>
      have hready := c.isReady_start direction ctx parms (Sink.fault_of_carryOut hcarry)
      have hmiddle := u.precedes_carryOut false
        ((c.start direction ctx parms).2.state.block direction data)
      rw [hcarry] at hfirst
      split at h
      next hcarry =>
        cases h
        exact hfirst.causes (hcause (Codec.faultsOnly_block_of_isReady hready data)
          (fun _ => Direction.Admits.not_isInternal) hcarry)
      next v hcarry =>
        rw [hcarry] at hmiddle
        exact (hfirst.trans hmiddle).causes (hcause
          (Codec.faultsOnly_finish_of_isReady (Codec.isReady_block hready data))
          (fun _ => Direction.Admits.not_isInternal) (Prod.mk.inj h).2)
  | fail => cases h

end EngineAction

namespace Engine

theorem Reachable.causes_of_isInternal {codec : Codec} (hiv : codec.HasWholeIv) {e : Engine}
    (h : Reachable codec e) {ctx : CryptoContext} {a : EngineAction} {error : Error}
    (herror : (a.perform ctx e).2.2.error? = some error) (hinternal : error.IsInternal) :
    ∃ sink, a.target e.session = some sink ∧ sink.Causes error := by
  have hholds := h.holds Codec.isInvariant_isReady
  by_cases ha : a.Allowed e.phase
  · obtain ⟨sink, htarget, houtcome⟩ := a.perform_of_allowed hholds.bound ha ctx
    refine ⟨sink, htarget, ?_⟩
    rw [houtcome] at herror
    unfold EngineAction.outcome at herror
    split at herror
    next => cases a <;> cases herror
    next hwork =>
      cases herror
      refine EngineAction.causes_of_work (hiv.of_fresh h.settings) ?_ ?_ hwork hinternal
      · rintro direction data rfl
        exact hholds.codec direction ha
      · rintro direction rfl
        exact hholds.codec direction ha
  · rw [a.perform_of_not_allowed ha ctx] at herror
    cases herror
    cases hinternal

/-- Feeds block after block and ends the session. The answer is that of the first call that is not
done. -/
def complete (direction : Direction) (e : Engine) : List Bytes → Engine × Reply
  | [] => e.finish direction
  | data :: blocks =>
    match e.block direction data with
    | (e, .done) => e.complete direction blocks
    | outcome => outcome

/-- By induction on the blocks: each leaves the codec ready and the sink a buffer. -/
theorem complete_of_isReady {direction : Direction} {c : Codec} (h : c.IsReady direction)
    {sink : Sink} (hsink : sink.IsBuffer) (blocks : List Bytes) :
    let reply := ((⟨c, .active direction sink⟩ : Engine).complete direction blocks).2
    (∃ t, reply = .returned t) ∨ ∃ error t, reply = .broken error t ∧ direction.Admits error := by
  intro reply
  induction blocks generalizing c sink with
  | nil =>
    have hfaults := Codec.faultsOnly_finish_of_isReady h
    cases hfault : (c.finish direction).fault with
    | none =>
      obtain ⟨t, hfinish, -⟩ := finish_of_no_fault hsink hfault
      exact .inl ⟨t, congrArg Prod.snd hfinish⟩
    | some error =>
      obtain ⟨t, hfinish⟩ := finish_of_fault hsink hfault
      exact .inr ⟨error, t, congrArg Prod.snd hfinish, hfaults error hfault⟩
  | cons data blocks ih =>
    have hfaults := Codec.faultsOnly_block_of_isReady h data
    cases hfault : (c.block direction data).fault with
    | none =>
      obtain ⟨t, hblock, ht, -⟩ := block_of_no_fault hsink hfault
      have hnext : reply = ((⟨(c.block direction data).state, .active direction t⟩ :
          Engine).complete direction blocks).2 := by
        simp only [reply, complete, hblock]
      rw [hnext]
      exact ih (Codec.isReady_block h data) ht
    | some error =>
      obtain ⟨t, hblock⟩ := block_of_fault hsink hfault
      right
      refine ⟨error, some t, ?_, hfaults error hfault⟩
      simp only [reply, complete, hblock]

/-- A begin that went well on a buffer leaves a session on a buffer, and the codec ready for it. -/
theorem start_done {e e₁ : Engine} {direction : Direction} {sink : Sink}
    {parms : Option DecodeParms} {ctx ctx' : CryptoContext} (hsink : sink.IsBuffer)
    (h : e.start direction sink parms ctx = (ctx', e₁, .done)) :
    ∃ c t, e₁ = ⟨c, .active direction t⟩ ∧ t.IsBuffer ∧ c.IsReady direction := by
  cases hphase : e.phase.isActive with
  | true =>
    simp only [start, hphase, ↓reduceIte, refuse] at h
    cases h
  | false =>
    have hstart := start_of_inactive hphase direction sink parms ctx
    rw [h] at hstart
    cases hfault : (e.codec.start direction ctx parms).2.fault with
    | none =>
      obtain ⟨t, hcarry, ht, -⟩ := Sink.carryOut_of_no_fault hsink hfault false
      simp only [EngineAction.outcome, EngineAction.work, hcarry] at hstart
      cases hstart
      exact ⟨_, t, rfl, ht, e.codec.isReady_start direction ctx parms hfault⟩
    | some error =>
      obtain ⟨t, hcarry⟩ := Sink.carryOut_of_fault hsink hfault false
      simp only [EngineAction.outcome, EngineAction.work, hcarry] at hstart
      cases hstart

/-- After any calls, under any crypto contexts: once a begin on a buffer went well, encoding fails
neither on a block nor at the end, and decoding fails only for its data. No call brings out an
internal error of a codec; where one comes out, the sink itself answered with it. -/
theorem fails_only_for_data {codec : Codec} {e : Engine} (h : Reachable codec e) :
    (∀ (sink : Sink) (ctx ctx' : CryptoContext) (e₁ : Engine), sink.IsBuffer →
      e.beginEncode sink ctx = (ctx', e₁, .done) →
        ∀ blocks : List Bytes, ∃ t, (e₁.complete .encode blocks).2 = .returned t) ∧
    (∀ (sink : Sink) (parms : Option DecodeParms) (ctx ctx' : CryptoContext) (e₁ : Engine),
      sink.IsBuffer → e.beginDecode sink parms ctx = (ctx', e₁, .done) →
        ∀ (blocks : List Bytes) (error : Error),
          (e₁.complete .decode blocks).2.error? = some error → error.IsDecode) ∧
    (codec.HasWholeIv → ∀ (ctx : CryptoContext) (a : EngineAction) (error : Error),
      (a.perform ctx e).2.2.error? = some error → error.IsInternal →
        ∃ sink, a.target e.session = some sink ∧ sink.Causes error) := by
  refine ⟨?_, ?_, fun hiv ctx a error => h.causes_of_isInternal hiv⟩
  · intro sink ctx ctx' e₁ hsink hbegin blocks
    obtain ⟨c, t, rfl, ht, hready⟩ := start_done hsink hbegin
    rcases complete_of_isReady hready ht blocks with hreturned | ⟨error, u, -, hadmits, -⟩
    · exact hreturned
    · cases hadmits
  · intro sink parms ctx ctx' e₁ hsink hbegin blocks error herror
    obtain ⟨c, t, rfl, ht, hready⟩ := start_done hsink hbegin
    rcases complete_of_isReady hready ht blocks with ⟨u, hreturned⟩ | ⟨error', u, hbroken, -, hdata⟩
    · rw [hreturned] at herror
      cases herror
    · rw [hbroken] at herror
      cases herror
      exact hdata

theorem fails_only_for_data_aes :
    let codec : Codec := .crypt { cipher := .aes128Cbc, key := List.replicate 16 7
                                  iv := some (List.replicate 16 9) }
    Reachable codec { codec } ∧
      ∃ ctx' e₁, ({ codec } : Engine).beginEncode .buffer {} = (ctx', e₁, .done) ∧
        ∃ t, (e₁.complete .encode [[1, 2], [], [3]]).2 = .returned t := by
  intro codec
  have hnew : Reachable codec { codec } := .new
  refine ⟨hnew, _, _, rfl, ?_⟩
  exact (fails_only_for_data hnew).1 .buffer {} _ _ rfl rfl _

end Engine
end PdfStream
