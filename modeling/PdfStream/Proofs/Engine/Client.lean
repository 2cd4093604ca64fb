import PdfStream.Proofs.Engine.Shared

/-!
An engine and its context, call after call. The context changes only where a session begins, so a
session that is open goes on alike wherever it began; and two clients whose contexts draw the same
IVs get the same answers ever after.
-/
namespace PdfStream

/-- The direction and the parameters of the session that a call is to open. -/
def EngineAction.opens? : EngineAction → Option (Direction × Option DecodeParms)
  | .start direction _ parms => some (direction, parms)
  | .oneShot direction _ parms _ => some (direction, parms)
  | .block .. | .finish _ | .fail => none

namespace Engine

theorem context_start (e : Engine) (direction : Direction) (sink : Sink)
    (parms : Option DecodeParms) (ctx : CryptoContext) :
    (e.start direction sink parms ctx).1 =
      if e.phase.isActive then ctx else (e.codec.start direction ctx parms).1 := by
  cases hp : e.phase.isActive with
  | true => simp [start, hp]
  | false =>
    rw [start_of_inactive hp]
    rfl

theorem context_oneShot (e : Engine) (direction : Direction) (sink : Sink)
    (parms : Option DecodeParms) (data : Bytes) (ctx : CryptoContext) :
    (e.oneShot direction sink parms data ctx).1 = (e.start direction sink parms ctx).1 := by
  unfold oneShot
  rcases e.start direction sink parms ctx with ⟨ctx', e', reply⟩
  cases reply with
  | done =>
    dsimp only
    rcases e'.block direction data with ⟨e'', reply⟩
    cases reply <;> rfl
  | returned | refused | broken => rfl

/-- Where no session begins the context stays as it is. -/
theorem context_perform (e : Engine) (ctx : CryptoContext) (a : EngineAction) :
    (a.perform ctx e).1 = match a.opens? with
      | some (direction, parms) =>
        if e.phase.isActive then ctx else (e.codec.start direction ctx parms).1
      | none => ctx := by
  cases a with
  | start direction sink parms => exact e.context_start direction sink parms ctx
  | oneShot direction sink parms data =>
    exact (e.context_oneShot direction sink parms data ctx).trans
      (e.context_start direction sink parms ctx)
  | block | finish | fail => rfl

theorem perform_concur_of_opens {e e' : Engine} (h : e.Mirrors e') {a : EngineAction}
    (ha : a.opens? = none) (ctx ctx' : CryptoContext) :
    Concur (a.perform ctx e).2 (a.perform ctx' e').2 := by
  cases a with
  | start | oneShot => cases ha
  | block direction data => exact block_concur h direction data
  | finish direction => exact finish_concur h direction
  | fail => exact fail_concur h

end Engine

namespace Client
variable {p q : Client} {a : EngineAction}

/-- What each call answers, and the session as it leaves it. -/
def answers (p : Client) : List EngineAction → List (Reply × Session)
  | [] => []
  | a :: calls => p.answer a :: (p.perform a).answers calls

theorem answers_cons (p : Client) (a : EngineAction) (calls : List EngineAction) :
    p.answers (a :: calls) = p.answer a :: (p.perform a).answers calls := rfl

/-- As long as no session begins, the contexts do not show. -/
theorem answers_of_mirrors (h : p.engine.Mirrors q.engine) {calls : List EngineAction}
    (hcalls : ∀ a ∈ calls, a.opens? = none) : p.answers calls = q.answers calls := by
  induction calls generalizing p q with
  | nil => rfl
  | cons a calls ih =>
    obtain ⟨ha, hcalls⟩ := List.forall_mem_cons.1 hcalls
    obtain ⟨hmirrors, hreply⟩ := Engine.perform_concur_of_opens h ha p.ctx q.ctx
    have hrest : (p.perform a).answers calls = (q.perform a).answers calls := ih hmirrors hcalls
    rw [answers_cons, answers_cons, hrest]
    exact congrArg (· :: _) (Prod.ext hreply hmirrors.session)

/-- Decoding needs no more than the same ciphers. -/
theorem answers_of_decode (hsettings : p.engine.codec.fresh = q.engine.codec.fresh)
    (hp : p.engine.phase.isActive = false) (hq : q.engine.phase.isActive = false)
    (hoffers : p.ctx.Matches q.ctx) (parms : Option DecodeParms) (data? : Option Bytes)
    (sink : Sink) {calls : List EngineAction} (hcalls : ∀ a ∈ calls, a.opens? = none) :
    p.answers (.opening .decode parms data? sink :: calls) =
      q.answers (.opening .decode parms data? sink :: calls) := by
  have hmeets : p.engine.codec.MeetsAlike .decode p.ctx q.ctx := by
    cases p.engine.codec with
    | crypt c => exact ⟨hoffers, nofun⟩
    | runLength | lzw | ascii85 | asciiHex | flate => trivial
  obtain ⟨hmirrors, hreply⟩ := Engine.opening_concur hsettings hp hq hmeets parms data? sink
  have hrest : (p.perform (.opening .decode parms data? sink)).answers calls =
      (q.perform (.opening .decode parms data? sink)).answers calls :=
    answers_of_mirrors hmirrors hcalls
  rw [answers_cons, answers_cons, hrest]
  exact congrArg (· :: _) (Prod.ext hreply hmirrors.session)

/-- No call tells the two clients apart. -/
structure Alike (p q : Client) : Prop where
  mirrors : p.engine.Mirrors q.engine
  offers : p.ctx.Matches q.ctx
  entropy : p.ctx.entropy = q.ctx.entropy

/-- What a call leaves of two contexts that offer the same and draw the same. -/
theorem context_alike (hsettings : p.engine.codec.fresh = q.engine.codec.fresh)
    (hactive : p.engine.phase.isActive = q.engine.phase.isActive)
    (hoffers : p.ctx.Matches q.ctx) (hentropy : p.ctx.entropy = q.ctx.entropy) (a : EngineAction) :
    (p.perform a).ctx.Matches (q.perform a).ctx ∧
      (p.perform a).ctx.entropy = (q.perform a).ctx.entropy := by
  have hp := p.engine.context_perform p.ctx a
  have hq := q.engine.context_perform q.ctx a
  constructor
  · have hbefore : (p.perform a).ctx.Matches p.ctx :=
      Engine.perform_keeps (CryptoContext.isKept_matches p.ctx) (.refl p.ctx) p.engine a
    have hafter : (q.perform a).ctx.Matches q.ctx :=
      Engine.perform_keeps (CryptoContext.isKept_matches q.ctx) (.refl q.ctx) q.engine a
    exact (hbefore.trans hoffers).trans hafter.symm
  · show (a.perform p.ctx p.engine).1.entropy = (a.perform q.ctx q.engine).1.entropy
    rw [hp, hq, hactive]
    split
    next =>
      split
      next => exact hentropy
      next =>
        rw [Codec.entropy_start hoffers hentropy, Codec.context_start hsettings]
    next => exact hentropy

theorem Alike.perform (h : p.Alike q) (a : EngineAction) :
    (p.perform a).Alike (q.perform a) ∧ p.answer a = q.answer a := by
  obtain ⟨hmirrors, hreply⟩ := Engine.perform_concur h.mirrors
    (fun _ _ => Codec.meetsAlike_of_matches h.offers h.entropy) a
  obtain ⟨hoffers, hentropy⟩ := context_alike h.mirrors.settings
    (congrArg Phase.isActive h.mirrors.phase) h.offers h.entropy a
  exact ⟨⟨hmirrors, hoffers, hentropy⟩, Prod.ext hreply hmirrors.session⟩

/-- By induction on the calls. -/
theorem Alike.answers (h : p.Alike q) (calls : List EngineAction) :
    p.answers calls = q.answers calls := by
  induction calls generalizing p q with
  | nil => rfl
  | cons a calls ih =>
    obtain ⟨hnext, hanswer⟩ := h.perform a
    rw [answers_cons, answers_cons, hanswer, ih hnext]

/-- Nothing but the settings shows where a session begins. -/
theorem answers_of_opening (hsettings : p.engine.codec.fresh = q.engine.codec.fresh)
    (hp : p.engine.phase.isActive = false) (hq : q.engine.phase.isActive = false)
    (hoffers : p.ctx.Matches q.ctx) (hentropy : p.ctx.entropy = q.ctx.entropy)
    (direction : Direction) (parms : Option DecodeParms) (data? : Option Bytes) (sink : Sink)
    (calls : List EngineAction) :
    p.answers (.opening direction parms data? sink :: calls) =
      q.answers (.opening direction parms data? sink :: calls) := by
  obtain ⟨hmirrors, hreply⟩ := Engine.opening_concur hsettings hp hq
    (Codec.meetsAlike_of_matches hoffers hentropy) parms data? sink
  obtain ⟨hmatches, hdraws⟩ := context_alike hsettings (hp.trans hq.symm) hoffers hentropy
    (.opening direction parms data? sink)
  have halike : (p.perform (.opening direction parms data? sink)).Alike
      (q.perform (.opening direction parms data? sink)) := ⟨hmirrors, hmatches, hdraws⟩
  rw [answers_cons, answers_cons, halike.answers]
  exact congrArg (· :: _) (Prod.ext hreply hmirrors.session)

/-- Decoding draws no IV. -/
theorem entropy_perform (p : Client) (ha : ∀ parms, a.opens? ≠ some (.encode, parms)) :
    (p.perform a).ctx.entropy = p.ctx.entropy := by
  have hctx := p.engine.context_perform p.ctx a
  show (a.perform p.ctx p.engine).1.entropy = _
  rw [hctx]
  split
  next direction parms hopens =>
    split
    next => rfl
    next =>
      cases direction with
      | encode => exact absurd hopens (ha parms)
      | decode =>
        cases p.engine.codec with
        | crypt c => exact c.entropy_beginDecode parms p.ctx
        | runLength | lzw | ascii85 | asciiHex | flate => rfl
  next => rfl

/-- Decode sessions leave settings and context as good as they were. By induction on the calls. -/
theorem run_of_decode (p : Client) {calls : List EngineAction}
    (hcalls : ∀ a ∈ calls, ∀ parms, a.opens? ≠ some (.encode, parms)) :
    (p.run calls).engine.codec.fresh = p.engine.codec.fresh ∧ (p.run calls).ctx.Matches p.ctx ∧
      (p.run calls).ctx.entropy = p.ctx.entropy := by
  induction calls generalizing p with
  | nil => exact ⟨rfl, .refl p.ctx, rfl⟩
  | cons a calls ih =>
    obtain ⟨ha, hcalls⟩ := List.forall_mem_cons.1 hcalls
    obtain ⟨hsettings, hoffers, hentropy⟩ := ih (p.perform a) hcalls
    refine ⟨?_, ?_, ?_⟩
    · exact hsettings.trans (p.engine.fresh_perform p.ctx a)
    · exact hoffers.trans
        (Engine.perform_keeps (CryptoContext.isKept_matches p.ctx) (.refl p.ctx) p.engine a)
    · exact hentropy.trans (p.entropy_perform ha)

end Client
end PdfStream
