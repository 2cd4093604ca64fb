import PdfStream.Proofs.Engine.History

/-!
Crypt engines that share a crypto context. An open session has all that it needs: neither the
sessions of the other engines nor the teardown of the context show in it, and it goes on as it would
under a context of its own. What the teardown ends is only that sessions can begin.
-/
namespace PdfStream
namespace CryptoContext

/-- The providers are loaded until the teardown, or can be, and they have been loaded only once. -/
structure IsSound (ctx : CryptoContext) : Prop where
  live : ctx.tornDown = false → ctx.IsLive
  inits : ctx.inits = if ctx.registry.isSome then 1 else 0

theorem isSound_new (entropy : Entropy) : IsSound { entropy } where
  live := fun _ => (isLive_iff _).2 ⟨rfl, .inr ⟨rfl, rfl⟩⟩
  inits := rfl

theorem tornDown_load (ctx : CryptoContext) : ctx.load.1.tornDown = ctx.tornDown := by
  unfold load
  split
  next => rfl
  next =>
    split
    next => rfl
    next => split <;> rfl

theorem isKept_tornDown (torn : Bool) : IsKept (·.tornDown = torn) where
  load := fun ctx h => ctx.tornDown_load.trans h
  drawIv := fun _ h => h

theorem isKept_isSound : IsKept IsSound where
  load := by
    intro ctx h
    constructor
    · intro hload
      exact ctx.load_matches.isLive_iff.2 (h.live (ctx.tornDown_load.symm.trans hload))
    · have hinits := h.inits
      unfold load
      split
      next => exact hinits
      next =>
        split
        next => exact hinits
        next hnone =>
          rw [hnone] at hinits
          split
          next => rw [hinits, hnone]
          next => simp [hinits]
  drawIv := by
    intro ctx h
    constructor
    · intro hdraw
      exact ctx.drawIv_matches.isLive_iff.2 (h.live hdraw)
    · exact h.inits

theorem IsSound.teardown {ctx : CryptoContext} (h : ctx.IsSound) : ctx.teardown.1.IsSound := by
  unfold CryptoContext.teardown
  split
  · exact h
  · constructor
    · exact nofun
    · simpa using h.inits

theorem tornDown_teardown (ctx : CryptoContext) : ctx.teardown.1.tornDown = true := by
  unfold CryptoContext.teardown
  split
  · assumption
  · rfl

theorem IsSound.inits_le {ctx : CryptoContext} (h : ctx.IsSound) : ctx.inits ≤ 1 := by
  rw [h.inits]
  split
  · exact Nat.le_refl 1
  · exact Nat.zero_le 1

end CryptoContext

namespace Crypt

/-- The cipher that a session is to use. -/
def cipherFor (c : Crypt) (direction : Direction) (parms : Option DecodeParms) :
    Except Error CipherKind :=
  match direction with
  | .encode => .ok c.cipher
  | .decode => c.decodeCipher parms

/-- The parameters name a cipher, and the key suits it. -/
def PassesChecks (c : Crypt) (direction : Direction) (parms : Option DecodeParms) : Prop :=
  ∃ cipher, c.cipherFor direction parms = .ok cipher ∧ cipher.AcceptsKeyLength c.key.length

theorem passesChecks_fresh {c : Crypt} {direction : Direction} {parms : Option DecodeParms} :
    c.fresh.PassesChecks direction parms ↔ c.PassesChecks direction parms := by
  cases direction <;> rfl

theorem resolve_of_tornDown {ctx : CryptoContext} (h : ctx.tornDown = true) (c : Crypt)
    (cipher : CipherKind) :
    ∃ e, c.resolve cipher ctx = (ctx, .error e) ∧
      (cipher.AcceptsKeyLength c.key.length → e = .usage .contextTornDown) := by
  by_cases hkey : cipher.AcceptsKeyLength c.key.length
  · refine ⟨.usage .contextTornDown, ?_, fun _ => rfl⟩
    simp [resolve, CipherKind.checkKeyLength, hkey, CryptoContext.selectCipher,
      CryptoContext.load, h, Except.bind]
  · refine ⟨.configuration (.keyLength cipher c.key.length), ?_, fun hkey' => absurd hkey' hkey⟩
    simp [resolve, CipherKind.checkKeyLength, hkey]

end Crypt

/-- After the teardown no session begins, and trying changes nothing about the context. -/
theorem Codec.start_of_tornDown {ctx : CryptoContext} (h : ctx.tornDown = true) (c : Crypt)
    (direction : Direction) (parms : Option DecodeParms) :
    ∃ d e, (Codec.crypt c).start direction ctx parms = (ctx, .stop (.crypt d) e) ∧
      (c.PassesChecks direction parms → e = .usage .contextTornDown) := by
  cases direction with
  | encode =>
    obtain ⟨e, hresolve, he⟩ :=
      Crypt.resolve_of_tornDown h { c with session := .idle } c.cipher
    refine ⟨{ c with session := .idle }, e, ?_, ?_⟩
    · simp [start, beginEncode, Crypt.beginEncode, hresolve]
    · rintro ⟨cipher, ⟨⟩, hkey⟩
      exact he hkey
  | decode =>
    cases hcipher : Crypt.decodeCipher { c with session := .idle } parms with
    | error e =>
      refine ⟨{ c with session := .idle }, e, ?_, ?_⟩
      · simp [start, beginDecode, Crypt.beginDecode, hcipher]
      · rintro ⟨cipher, hok, -⟩
        cases hcipher.symm.trans hok
    | ok cipher =>
      obtain ⟨e, hresolve, he⟩ :=
        Crypt.resolve_of_tornDown h { c with session := .idle } cipher
      refine ⟨{ c with session := .idle }, e, ?_, ?_⟩
      · simp [start, beginDecode, Crypt.beginDecode, hcipher, hresolve]
      · rintro ⟨cipher', hok, hkey⟩
        cases hcipher.symm.trans hok
        exact he hkey

namespace Engine
variable {e : Engine} {ctx : CryptoContext}

theorem start_of_tornDown (h : ctx.tornDown = true) {c : Crypt} (hcodec : e.codec = .crypt c)
    (hp : e.phase.isActive = false) (direction : Direction) (sink : Sink)
    (parms : Option DecodeParms) :
    ∃ d error, e.start direction sink parms ctx = (ctx, ⟨d, .failed⟩, .broken error sink) ∧
      (c.PassesChecks direction parms → error = .usage .contextTornDown) := by
  obtain ⟨d, error, hstart, herror⟩ := Codec.start_of_tornDown h c direction parms
  refine ⟨.crypt d, error, ?_, herror⟩
  rw [start_of_inactive hp, EngineAction.outcome, EngineAction.work, hcodec, hstart]
  rfl

theorem opening_of_tornDown (h : ctx.tornDown = true) {c : Crypt} (hcodec : e.codec = .crypt c)
    (hp : e.phase.isActive = false) (direction : Direction) (parms : Option DecodeParms)
    (data? : Option Bytes) (sink : Sink) :
    ∃ d error, (EngineAction.opening direction parms data? sink).perform ctx e =
        (ctx, ⟨d, .failed⟩, .broken error sink) ∧
      (c.PassesChecks direction parms → error = .usage .contextTornDown) := by
  obtain ⟨d, error, hstart, herror⟩ := start_of_tornDown h hcodec hp direction sink parms
  refine ⟨d, error, ?_, herror⟩
  cases data? with
  | none => exact hstart
  | some data =>
    show e.oneShot direction sink parms data ctx = _
    rw [oneShot, hstart]

/-- With the context gone, an engine with no open session does not get one, and says so. -/
theorem perform_of_tornDown (h : ctx.tornDown = true) {c : Crypt} (hcodec : e.codec = .crypt c)
    (hp : e.phase.isActive = false) (a : EngineAction) :
    (a.perform ctx e).2.1.phase.isActive = false ∧ (a.perform ctx e).2.2.error? ≠ none := by
  have hopening (direction : Direction) (parms : Option DecodeParms) (data? : Option Bytes)
      (sink : Sink) :
      ((EngineAction.opening direction parms data? sink).perform ctx e).2.1.phase.isActive = false ∧
        ((EngineAction.opening direction parms data? sink).perform ctx e).2.2.error? ≠ none := by
    obtain ⟨d, error, hopen, -⟩ := opening_of_tornDown h hcodec hp direction parms data? sink
    rw [hopen]
    exact ⟨rfl, nofun⟩
  have hrefused (hnot : ¬a.Allowed e.phase) :
      (a.perform ctx e).2.1.phase.isActive = false ∧ (a.perform ctx e).2.2.error? ≠ none := by
    rw [EngineAction.perform_of_not_allowed hnot]
    exact ⟨hp, nofun⟩
  cases a with
  | start direction sink parms => exact hopening direction parms none sink
  | oneShot direction sink parms data => exact hopening direction parms (some data) sink
  | block direction data => exact hrefused (direction.phase_ne hp)
  | finish direction => exact hrefused (direction.phase_ne hp)
  | fail =>
    apply hrefused
    intro hactive
    have hopen := Phase.isActive_iff.2 hactive
    rw [hp] at hopen
    cases hopen

/-- A session that could have begun before the teardown is refused, as is one that would be the
second. -/
theorem opening_refused (h : ctx.tornDown = true) {c : Crypt} (hcodec : e.codec = .crypt c)
    {direction : Direction} {parms : Option DecodeParms} (hchecks : c.PassesChecks direction parms)
    (data? : Option Bytes) (sink : Sink) :
    ((EngineAction.opening direction parms data? sink).perform ctx e).1 = ctx ∧
      ∃ error, ((EngineAction.opening direction parms data? sink).perform ctx e).2.2.error? =
        some error ∧ error.IsUsage := by
  cases hp : e.phase.isActive with
  | false =>
    obtain ⟨d, error, hopen, herror⟩ := opening_of_tornDown h hcodec hp direction parms data? sink
    rw [hopen]
    exact ⟨rfl, error, rfl, _, herror hchecks⟩
  | true =>
    have hnot : ¬(EngineAction.opening direction parms data? sink).Allowed e.phase := by
      intro hallowed
      have hidle : e.phase.isActive = false := by
        apply Phase.not_isActive_iff.2
        cases data? <;> exact hallowed
      rw [hp] at hidle
      cases hidle
    rw [EngineAction.perform_of_not_allowed hnot]
    exact ⟨rfl, _, rfl, _, rfl⟩

theorem perform_keeps {P : CryptoContext → Prop} (hP : CryptoContext.IsKept P) (h : P ctx)
    (e : Engine) (a : EngineAction) : P (a.perform ctx e).1 := by
  have hstart (direction : Direction) (sink : Sink) (parms : Option DecodeParms) :
      P (e.start direction sink parms ctx).1 := by
    unfold start
    split
    · exact h
    · split
      · exact h
      · exact e.codec.start_keeps hP direction h parms
  cases a with
  | start direction sink parms => exact hstart direction sink parms
  | block | finish | fail => exact h
  | oneShot direction sink parms data =>
    have hopen := hstart direction sink parms
    show P (e.oneShot direction sink parms data ctx).1
    unfold oneShot
    revert hopen
    rcases e.start direction sink parms ctx with ⟨ctx', e', reply⟩
    intro hopen
    cases reply with
    | done =>
      dsimp only
      rcases e'.block direction data with ⟨e'', reply⟩
      cases reply <;> exact hopen
    | returned | refused | broken => exact hopen

end Engine

/-- An engine with the context that it uses. -/
structure Client where
  ctx : CryptoContext
  engine : Engine

namespace Client

/-- A new engine under a context of its own. -/
def new (c : Crypt) (entropy : Entropy) : Client := ⟨{ entropy }, { codec := .crypt c }⟩

def perform (p : Client) (a : EngineAction) : Client :=
  ⟨(a.perform p.ctx p.engine).1, (a.perform p.ctx p.engine).2.1⟩

def run (p : Client) (calls : List EngineAction) : Client := calls.foldl perform p

/-- What a call answers, and the session as it leaves it, with the sink and all that it holds. -/
def answer (p : Client) (a : EngineAction) : Reply × Session :=
  ((a.perform p.ctx p.engine).2.2, (a.perform p.ctx p.engine).2.1.session)

end Client

/-- A call on one of several engines, or the teardown of the context that they share. -/
inductive SharedAction (ι : Type) where
  | call (i : ι) (a : EngineAction)
  | teardown

/-- Engines that share a context. -/
structure Shared (ι : Type) where
  ctx : CryptoContext
  engine : ι → Engine

/-- The calls on one of the engines. -/
def SharedAction.callsOn {ι : Type} [DecidableEq ι] (i : ι) :
    List (SharedAction ι) → List EngineAction
  | [] => []
  | .call j a :: actions => if j = i then a :: callsOn i actions else callsOn i actions
  | .teardown :: actions => callsOn i actions

namespace Shared
variable {ι : Type} {s : Shared ι} {i : ι} {c : Crypt} {p : Client}

def new (codecs : ι → Crypt) (entropy : Entropy) : Shared ι :=
  ⟨{ entropy }, fun i => { codec := .crypt (codecs i) }⟩

def client (s : Shared ι) (i : ι) : Client := ⟨s.ctx, s.engine i⟩

/-- The codec is still the one that the engine was made with, and the engine is where it would be
alone, unless its context is gone and it has no session open. -/
structure Follows (s : Shared ι) (i : ι) (c : Crypt) (p : Client) : Prop where
  sound : s.ctx.IsSound
  live : p.ctx.IsLive
  settings : (s.engine i).codec.fresh = .crypt c.fresh
  mirrors : (s.engine i).Mirrors p.engine ∨
    s.ctx.tornDown = true ∧ (s.engine i).phase.isActive = false

theorem follows_new (codecs : ι → Crypt) (entropy entropy' : Entropy) (i : ι) :
    (new codecs entropy).Follows i (codecs i) (Client.new (codecs i) entropy') where
  sound := CryptoContext.isSound_new entropy
  live := (CryptoContext.isSound_new entropy').live rfl
  settings := rfl
  mirrors := .inl ⟨rfl, rfl, fun _ _ => rfl⟩

theorem Follows.exists_crypt (h : s.Follows i c p) :
    ∃ d : Crypt, (s.engine i).codec = .crypt d ∧ d.fresh = c.fresh := by
  have hsettings := h.settings
  cases hcodec : (s.engine i).codec with
  | crypt d =>
    rw [hcodec] at hsettings
    exact ⟨d, rfl, Codec.crypt.inj hsettings⟩
  | runLength | lzw | ascii85 | asciiHex | flate =>
    rw [hcodec] at hsettings
    cases hsettings

/-- While a session is open, or the context is there, a call does what it would do alone. -/
theorem Follows.concur (h : s.Follows i c p) (hc : c.IsFixed)
    (hopen : s.ctx.tornDown = false ∨ (s.engine i).phase.isActive = true) (a : EngineAction) :
    Engine.Concur (a.perform s.ctx (s.engine i)).2 (a.perform p.ctx p.engine).2 := by
  have hmirrors : (s.engine i).Mirrors p.engine := by
    rcases h.mirrors with hmirrors | ⟨htorn, hidle⟩
    · exact hmirrors
    · simp [htorn, hidle] at hopen
  apply Engine.perform_concur hmirrors
  intro hidle direction
  have hlive : s.ctx.IsLive := by
    apply h.sound.live
    simpa [hidle] using hopen
  have hown : (Codec.crypt c).MeetsAlike direction s.ctx p.ctx :=
    ⟨hlive.trans h.live.symm, fun _ => .inl hc⟩
  rw [← Codec.meetsAlike_fresh, h.settings]
  exact Codec.meetsAlike_fresh.2 hown

theorem Follows.answer_eq (h : s.Follows i c p) (hc : c.IsFixed)
    (hopen : s.ctx.tornDown = false ∨ (s.engine i).phase.isActive = true) (a : EngineAction) :
    (s.client i).answer a = p.answer a := by
  obtain ⟨hmirrors, hreply⟩ := h.concur hc hopen a
  exact Prod.ext hreply hmirrors.session

section
variable [DecidableEq ι]

def perform (s : Shared ι) : SharedAction ι → Shared ι
  | .call i a =>
    let p := (s.client i).perform a
    ⟨p.ctx, Function.update s.engine i p.engine⟩
  | .teardown => { s with ctx := s.ctx.teardown.1 }

def run (s : Shared ι) (actions : List (SharedAction ι)) : Shared ι := actions.foldl perform s

theorem perform_keeps {P : CryptoContext → Prop} (hP : CryptoContext.IsKept P) (h : P s.ctx)
    (i : ι) (a : EngineAction) : P (s.perform (.call i a)).ctx :=
  Engine.perform_keeps hP h (s.engine i) a

theorem engine_perform_of_ne {j : ι} (h : i ≠ j) (a : EngineAction) :
    (s.perform (.call j a)).engine i = s.engine i := Function.update_of_ne h _ _

theorem engine_perform_self (a : EngineAction) :
    (s.perform (.call i a)).engine i = (a.perform s.ctx (s.engine i)).2.1 :=
  Function.update_self _ _ _

theorem isSound_run (h : s.ctx.IsSound) (actions : List (SharedAction ι)) :
    (s.run actions).ctx.IsSound := by
  induction actions generalizing s with
  | nil => exact h
  | cons action actions ih =>
    apply ih
    cases action with
    | call i a => exact perform_keeps CryptoContext.isKept_isSound h i a
    | teardown => exact h.teardown

theorem tornDown_run_iff (s : Shared ι) (actions : List (SharedAction ι)) :
    (s.run actions).ctx.tornDown = true ↔
      s.ctx.tornDown = true ∨ SharedAction.teardown ∈ actions := by
  induction actions generalizing s with
  | nil => simp [run]
  | cons action actions ih =>
    have hrest := ih (s.perform action)
    show ((s.perform action).run actions).ctx.tornDown = true ↔ _
    cases action with
    | call i a =>
      have hsame : (s.perform (.call i a)).ctx.tornDown = s.ctx.tornDown :=
        perform_keeps (CryptoContext.isKept_tornDown s.ctx.tornDown) rfl i a
      simp [hrest, hsame]
    | teardown =>
      have htorn : (s.perform .teardown).ctx.tornDown = true := s.ctx.tornDown_teardown
      simp [hrest, htorn]

theorem Follows.call (h : s.Follows i c p) (hc : c.IsFixed) (a : EngineAction) :
    (s.perform (.call i a)).Follows i c (p.perform a) where
  sound := perform_keeps CryptoContext.isKept_isSound h.sound i a
  live := (Engine.perform_keeps (CryptoContext.isKept_matches p.ctx) (.refl p.ctx) p.engine
    a).isLive_iff.2 h.live
  settings := by
    rw [engine_perform_self]
    exact (Engine.fresh_perform (s.engine i) s.ctx a).trans h.settings
  mirrors := by
    rw [engine_perform_self]
    by_cases hopen : s.ctx.tornDown = false ∨ (s.engine i).phase.isActive = true
    · exact .inl (h.concur hc hopen a).1
    · obtain ⟨htorn, hidle⟩ : s.ctx.tornDown = true ∧ (s.engine i).phase.isActive = false := by
        simpa using hopen
      obtain ⟨d, hcodec, -⟩ := h.exists_crypt
      right
      constructor
      · exact perform_keeps (CryptoContext.isKept_tornDown true) htorn i a
      · exact (Engine.perform_of_tornDown htorn hcodec hidle a).1

theorem Follows.other (h : s.Follows i c p) {j : ι} (hne : j ≠ i) (a : EngineAction) :
    (s.perform (.call j a)).Follows i c p where
  sound := perform_keeps CryptoContext.isKept_isSound h.sound j a
  live := h.live
  settings := by
    rw [engine_perform_of_ne hne.symm]
    exact h.settings
  mirrors := by
    rw [engine_perform_of_ne hne.symm]
    apply h.mirrors.imp_right
    intro hgone
    exact ⟨perform_keeps (CryptoContext.isKept_tornDown true) hgone.1 j a, hgone.2⟩

theorem Follows.teardown (h : s.Follows i c p) : (s.perform .teardown).Follows i c p where
  sound := h.sound.teardown
  live := h.live
  settings := h.settings
  mirrors := h.mirrors.imp_right fun hgone => ⟨s.ctx.tornDown_teardown, hgone.2⟩

theorem Follows.run (h : s.Follows i c p) (hc : c.IsFixed) (actions : List (SharedAction ι)) :
    (s.run actions).Follows i c (p.run (SharedAction.callsOn i actions)) := by
  induction actions generalizing s p with
  | nil => exact h
  | cons action actions ih =>
    cases action with
    | teardown => exact ih h.teardown
    | call j a =>
      show ((s.perform (.call j a)).run actions).Follows i c _
      unfold SharedAction.callsOn
      split
      next hown =>
        subst hown
        exact ih (h.call hc a)
      next hne => exact ih (h.other hne a)

theorem client_perform_of_ne {j : ι} (h : j ≠ i) {a : EngineAction}
    (hctx : (a.perform s.ctx (s.engine i)).1 = s.ctx) :
    (s.perform (.call i a)).client j = s.client j := by
  have hengine : (s.perform (.call i a)).engine j = s.engine j := engine_perform_of_ne h a
  have hsame : (s.perform (.call i a)).ctx = s.ctx := hctx
  rw [client, hengine, hsame]
  rfl

/-- Whatever the engines do in turn, and wherever the context is torn down: the providers are loaded
at most once; a call that meets an open session, or does not fail, is answered as it would be under a
context that the engine has to itself; and after the teardown no session begins, which the other
engines do not notice. -/
theorem sharing_isolated {codecs : ι → Crypt} (hfixed : ∀ i, (codecs i).IsFixed)
    (entropy entropy' : Entropy) (actions : List (SharedAction ι)) :
    let s := (new codecs entropy).run actions
    s.ctx.inits ≤ 1 ∧
      (∀ (i : ι) (a : EngineAction),
        (s.engine i).phase.isActive = true ∨ ((s.client i).answer a).1.error? = none ∨
            SharedAction.teardown ∉ actions →
          (s.client i).answer a =
            ((Client.new (codecs i) entropy').run (SharedAction.callsOn i actions)).answer a) ∧
      (SharedAction.teardown ∈ actions → ∀ (i : ι) (direction : Direction)
        (parms : Option DecodeParms) (data? : Option Bytes) (sink : Sink),
        (codecs i).PassesChecks direction parms →
          (∃ e, ((s.client i).answer (.opening direction parms data? sink)).1.error? = some e ∧
            e.IsUsage) ∧
          ∀ j, j ≠ i →
            (s.perform (.call i (.opening direction parms data? sink))).client j =
              s.client j) := by
  intro s
  have hfollows (i : ι) := (follows_new codecs entropy entropy' i).run (hfixed i) actions
  have htorn : s.ctx.tornDown = true ↔ SharedAction.teardown ∈ actions := by
    rw [tornDown_run_iff (new codecs entropy) actions]
    simp [new]
  refine ⟨(isSound_run (CryptoContext.isSound_new entropy) actions).inits_le, ?_, ?_⟩
  · intro i a hcall
    apply (hfollows i).answer_eq (hfixed i)
    rcases hcall with hactive | hnone | hnever
    · exact .inr hactive
    · by_contra hgone
      obtain ⟨hgone, hidle⟩ : s.ctx.tornDown = true ∧ (s.engine i).phase.isActive = false := by
        simpa using hgone
      obtain ⟨d, hcodec, -⟩ := (hfollows i).exists_crypt
      exact (Engine.perform_of_tornDown hgone hcodec hidle a).2 hnone
    · exact .inl (Bool.eq_false_iff.2 (mt htorn.1 hnever))
  · intro hgone i direction parms data? sink hchecks
    obtain ⟨d, hcodec, hsame⟩ := (hfollows i).exists_crypt
    have hown : d.PassesChecks direction parms := by
      rw [← Crypt.passesChecks_fresh, hsame]
      exact Crypt.passesChecks_fresh.2 hchecks
    obtain ⟨hctx, hrefused⟩ := Engine.opening_refused (htorn.2 hgone) hcodec hown data? sink
    exact ⟨hrefused, fun j hne => client_perform_of_ne hne hctx⟩

/-- The last byte of the IV comes after the teardown. -/
theorem sharing_isolated_late_iv :
    (∀ b : Bool, Crypt.IsFixed { cipher := if b then .aes128Cbc else .rc4
                                 key := List.replicate 16 7
                                 iv := some (List.replicate 16 9) }) ∧
      (((new (fun b : Bool => { cipher := if b then .aes128Cbc else .rc4
                                key := List.replicate 16 7
                                iv := some (List.replicate 16 9) }) {}).run
        [.call false (.start .encode .buffer none), .call true (.start .decode .buffer none),
          .call true (.block .decode (List.replicate 15 1)), .teardown]).client true).answer
            (.block .decode [1, 2]) =
        ((Client.new { cipher := .aes128Cbc, key := List.replicate 16 7
                       iv := some (List.replicate 16 9) } {}).run
          [.start .decode .buffer none, .block .decode (List.replicate 15 1)]).answer
            (.block .decode [1, 2]) := by
  have hfixed : ∀ b : Bool, Crypt.IsFixed { cipher := if b then .aes128Cbc else .rc4
                                            key := List.replicate 16 7
                                            iv := some (List.replicate 16 9) } := fun _ => .inr rfl
  obtain ⟨-, hanswer, -⟩ := sharing_isolated hfixed {} {}
    [.call false (.start .encode .buffer none), .call true (.start .decode .buffer none),
      .call true (.block .decode (List.replicate 15 1)), .teardown]
  exact ⟨hfixed, hanswer true (.block .decode [1, 2]) (.inl (by decide +kernel))⟩

end
end Shared
end PdfStream
