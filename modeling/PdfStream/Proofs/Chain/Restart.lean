import Mathlib.Data.List.Forall2
import PdfStream.Proofs.Chain.History

/-!
Starting over with a chain. As for a single engine, two runs are compared call by call. While a
session is open the stages run alike; once it is over all that is left of them is their settings.
-/
namespace PdfStream

/-- No call on the chain tells the two stages apart. -/
structure Stage.Mirrors (s s' : Stage) : Prop where
  engine : s.engine.Mirrors s'.engine
  parms : s.parms = s'.parms

namespace Chain
variable {direction : Direction} {stages stages' : List Stage}

theorem setup_eq_of_mirrors (h : List.Forall₂ Stage.Mirrors stages stages') :
    stages.map Stage.setup = stages'.map Stage.setup := by
  induction h with
  | nil => rfl
  | cons hs _ ih => simp only [List.map_cons, ih, Stage.setup, hs.parms, hs.engine.settings]

theorem inOrder_mirrors (direction : Direction)
    (h : List.Forall₂ Stage.Mirrors stages stages') :
    List.Forall₂ Stage.Mirrors (inOrder direction stages) (inOrder direction stages') := by
  cases direction with
  | encode => exact h
  | decode => exact List.forall₂_reverse_iff.2 h

/-- The work on one stage goes alike on engines that no call tells apart. -/
def WorksAlike (work : Engine → Bytes → Engine × Except Error Bytes) : Prop :=
  ∀ e e' data, e.Mirrors e' →
    (work e data).1.Mirrors (work e' data).1 ∧ (work e data).2 = (work e' data).2

theorem relay_alike {work : Engine → Bytes → Engine × Except Error Bytes}
    (hwork : WorksAlike work) (h : List.Forall₂ Stage.Mirrors stages stages') (data : Bytes) :
    List.Forall₂ Stage.Mirrors (relay work data stages).1 (relay work data stages').1 ∧
      (relay work data stages).2 = (relay work data stages').2 := by
  induction h generalizing data with
  | nil => exact ⟨.nil, rfl⟩
  | @cons s s' _ _ hs hrest ih =>
    have hown := hwork s.engine s'.engine data hs.engine
    simp only [relay]
    revert hown
    rcases work s.engine data with ⟨engine, result⟩
    rcases work s'.engine data with ⟨engine', result'⟩
    rintro ⟨hengine, ⟨⟩⟩
    cases result with
    | error e => exact ⟨.cons ⟨hengine, hs.parms⟩ hrest, rfl⟩
    | ok out =>
      obtain ⟨hstages, hresult⟩ := ih out
      exact ⟨.cons ⟨hengine, hs.parms⟩ hstages, hresult⟩

theorem drain_mirrors {e e' : Engine} (h : e.Mirrors e') :
    e.drain.1.Mirrors e'.drain.1 ∧ e.drain.2 = e'.drain.2 := by
  unfold Engine.drain
  rw [← h.session, ← h.phase]
  split
  · exact ⟨h, rfl⟩
  · exact ⟨⟨rfl, h.settings, h.inUse⟩, rfl⟩

theorem pumpEngine_alike (direction : Direction) : WorksAlike (pumpEngine direction) := by
  intro e e' data h
  have hblock := Engine.block_concur h direction data
  unfold pumpEngine
  revert hblock
  rcases e.block direction data with ⟨e₁, reply⟩
  rcases e'.block direction data with ⟨e₂, reply'⟩
  rintro ⟨hmirrors, ⟨⟩⟩
  dsimp only at hmirrors ⊢
  split
  · exact ⟨hmirrors, rfl⟩
  · obtain ⟨hdrain, hout⟩ := drain_mirrors hmirrors
    exact ⟨hdrain, congrArg Except.ok hout⟩

theorem finishEngine_alike (direction : Direction) : WorksAlike (finishEngine direction) := by
  intro e e' data h
  have hblock := Engine.block_concur h direction data
  unfold finishEngine
  revert hblock
  rcases e.block direction data with ⟨e₁, reply⟩
  rcases e'.block direction data with ⟨e₂, reply'⟩
  rintro ⟨hmirrors, ⟨⟩⟩
  dsimp only at hmirrors ⊢
  split
  · exact ⟨hmirrors, rfl⟩
  · obtain ⟨hfinish, hreply⟩ := Engine.finish_concur hmirrors direction
    exact ⟨hfinish, congrArg Reply.output hreply⟩

/-- An engine that has ended its session in good order has none. -/
theorem session_of_finish {e : Engine} {out : Bytes}
    (h : (e.finish direction).2.output = .ok out) : (e.finish direction).1.session = .idle := by
  revert h
  unfold Engine.finish Engine.deliver
  split
  · cases e.session.sink? with
    | none => exact nofun
    | some sink =>
      dsimp only
      rcases sink.carryOut true (e.codec.finish direction) with ⟨t, error | ⟨⟩⟩
      · exact nofun
      · exact fun _ => rfl
  · exact nofun

theorem session_of_finishEngine {e e' : Engine} {data out : Bytes}
    (h : finishEngine direction e data = (e', .ok out)) : e'.session = .idle := by
  unfold finishEngine at h
  dsimp only at h
  split at h
  · cases h
  · obtain ⟨hengine, hreply⟩ := Prod.mk.inj h
    rw [← hengine]
    exact session_of_finish hreply

theorem session_of_relay {data out : Bytes}
    (h : relay (finishEngine direction) data stages = (stages', .ok out)) :
    ∀ s ∈ stages', s.engine.session = .idle := by
  induction stages generalizing data stages' with
  | nil =>
    cases h
    exact fun s hs => absurd hs List.not_mem_nil
  | cons s stages ih =>
    rw [relay] at h
    rcases hown : finishEngine direction s.engine data with ⟨engine, e | out'⟩ <;> rw [hown] at h
    · cases h
    · rcases hrest : relay (finishEngine direction) out' stages with ⟨stages'', result⟩
      simp only [hrest] at h
      cases h
      exact List.forall_mem_cons.2 ⟨session_of_finishEngine hown, ih hrest⟩

/-- By induction on the stages: the contexts serve those to come alike, also after those before have
begun. -/
theorem startStages_alike (direction : Direction)
    (hsetup : stages.map Stage.setup = stages'.map Stage.setup)
    (h : ∀ s ∈ stages, s.engine.phase.isActive = false)
    (h' : ∀ s ∈ stages', s.engine.phase.isActive = false) {ctx ctx' : CryptoContext}
    (hctx : ∀ s ∈ stages, s.engine.codec.MeetsAlike direction ctx ctx') :
    (startStages direction stages ctx).2.2 = (startStages direction stages' ctx').2.2 ∧
      ((startStages direction stages ctx).2.2 = none →
        List.Forall₂ Stage.Mirrors (startStages direction stages ctx).2.1
          (startStages direction stages' ctx').2.1) := by
  induction stages generalizing stages' ctx ctx' with
  | nil =>
    cases stages' with
    | nil => exact ⟨rfl, fun _ => .nil⟩
    | cons s' stages' => cases hsetup
  | cons s stages ih =>
    cases stages' with
    | nil => cases hsetup
    | cons s' stages' =>
      simp only [List.map_cons, List.cons.injEq] at hsetup
      obtain ⟨hown, hrest⟩ := hsetup
      have hsettings : s.engine.codec.fresh = s'.engine.codec.fresh := congrArg Prod.fst hown
      have hparms : s.parms = s'.parms := congrArg Prod.snd hown
      have hfor : s.parmsFor direction = s'.parmsFor direction := by
        cases direction with
        | encode => rfl
        | decode => exact hparms
      obtain ⟨hidle, hidles⟩ := List.forall_mem_cons.1 h
      obtain ⟨hidle', hidles'⟩ := List.forall_mem_cons.1 h'
      obtain ⟨hmeets, hmeet⟩ := List.forall_mem_cons.1 hctx
      have hstart := Engine.start_concur hsettings hidle hidle' hmeets .buffer
        (s.parmsFor direction)
      have hmeet' : ∀ t ∈ stages, t.engine.codec.MeetsAlike direction
          (s.engine.start direction .buffer (s.parmsFor direction) ctx).1
          (s'.engine.start direction .buffer (s.parmsFor direction) ctx').1 := by
        intro t ht
        rw [Engine.start_of_inactive hidle, Engine.start_of_inactive hidle']
        exact (hmeet t ht).start hsettings
      rw [startStages_cons, startStages_cons, ← hfor]
      revert hstart hmeet'
      rcases s.engine.start direction .buffer (s.parmsFor direction) ctx with ⟨ctx₁, e₁, reply⟩
      rcases s'.engine.start direction .buffer (s.parmsFor direction) ctx' with ⟨ctx₂, e₂, reply'⟩
      rintro ⟨hmirrors, ⟨⟩⟩ hmeet'
      dsimp only at hmirrors hmeet' ⊢
      split
      · exact ⟨rfl, nofun⟩
      · obtain ⟨herror, hstages⟩ := ih hrest hidles hidles' hmeet'
        exact ⟨herror, fun hnone => .cons ⟨hmirrors, hparms⟩ (hstages hnone)⟩

/-- No call tells the two chains apart: the stages do not differ while a session is open, and have
the same settings at any time. -/
structure Mirrors (c c' : Chain) : Prop where
  session : c.session = c'.session
  settings : c.setup = c'.setup
  stages : c.phase.isActive → List.Forall₂ Stage.Mirrors c.stages c'.stages
  rest : c.phase.isActive = false → c.AtRest ∧ c'.AtRest

/-- The same answer, and chains that no later call tells apart. -/
def Concur (o o' : Chain × Reply) : Prop := o.1.Mirrors o'.1 ∧ o.2 = o'.2

theorem Mirrors.phase {c c' : Chain} (h : c.Mirrors c') : c.phase = c'.phase :=
  congrArg Session.phase h.session

theorem mirrors_of_atRest {c c' : Chain} (h : c.AtRest) (h' : c'.AtRest)
    (hsession : c.session = c'.session) (hsettings : c.setup = c'.setup) : c.Mirrors c' := by
  refine ⟨hsession, hsettings, ?_, fun _ => ⟨h, h'⟩⟩
  intro hactive
  rw [h.1] at hactive
  cases hactive

theorem mirrors_of_active {sink : Sink} (h : List.Forall₂ Stage.Mirrors stages stages') :
    Mirrors ⟨stages, .active direction sink⟩ ⟨stages', .active direction sink⟩ := by
  refine ⟨rfl, setup_eq_of_mirrors h, fun _ => h, ?_⟩
  intro hidle
  have hactive := direction.isActive_phase
  rw [← Bool.not_eq_true] at hidle
  exact absurd hactive hidle

theorem breakOff_concur (h : stages.map Stage.setup = stages'.map Stage.setup) (error : Error)
    (sink : Option Sink) : Concur (breakOff stages error sink) (breakOff stages' error sink) := by
  have hsettings := ((setup_breakOff stages error sink).trans h).trans
    (setup_breakOff stages' error sink).symm
  exact ⟨mirrors_of_atRest (atRest_breakOff _ _ _) (atRest_breakOff _ _ _) rfl hsettings, rfl⟩

section
variable {c c' : Chain}

theorem refuse_concur (h : c.Mirrors c') (call : Call) : Concur (c.refuse call) (c'.refuse call) := by
  refine ⟨h, ?_⟩
  simp only [refuse, h.phase]

theorem block_concur (h : c.Mirrors c') (direction : Direction) (data : Bytes) :
    Concur (c.block direction data) (c'.block direction data) := by
  unfold block
  rw [← h.phase, ← h.session]
  split
  next hp =>
    have hactive : c.phase.isActive := hp ▸ direction.isActive_phase
    have hrelay := relay_alike (pumpEngine_alike direction)
      (inOrder_mirrors direction (h.stages hactive)) data
    revert hrelay
    rcases relay (pumpEngine direction) data (inOrder direction c.stages) with ⟨stages, result⟩
    rcases relay (pumpEngine direction) data (inOrder direction c'.stages) with ⟨stages', result'⟩
    rintro ⟨hstages, ⟨⟩⟩
    have hback := inOrder_mirrors direction hstages
    have hsettings := setup_eq_of_mirrors hback
    dsimp only
    split
    · exact breakOff_concur hsettings _ _
    · exact breakOff_concur hsettings _ _
    · split
      · exact breakOff_concur hsettings _ _
      · rw [hp]
        exact ⟨mirrors_of_active hback, rfl⟩
  next => exact refuse_concur h _

theorem atRest_of_relay {data out : Bytes}
    (h : relay (finishEngine direction) data stages = (stages', .ok out)) :
    AtRest ⟨inOrder direction stages', .idle⟩ := by
  refine ⟨rfl, ?_⟩
  intro s hs
  rw [Engine.phase, session_of_relay h s (mem_inOrder.1 hs)]
  rfl

theorem finish_concur (h : c.Mirrors c') (direction : Direction) :
    Concur (c.finish direction) (c'.finish direction) := by
  unfold finish
  rw [← h.phase, ← h.session]
  split
  next hp =>
    have hactive : c.phase.isActive := hp ▸ direction.isActive_phase
    have hrelay := relay_alike (finishEngine_alike direction)
      (inOrder_mirrors direction (h.stages hactive)) []
    revert hrelay
    rcases hown : relay (finishEngine direction) [] (inOrder direction c.stages) with
      ⟨stages, result⟩
    rcases hown' : relay (finishEngine direction) [] (inOrder direction c'.stages) with
      ⟨stages', result'⟩
    rintro ⟨hstages, ⟨⟩⟩
    have hsettings := setup_eq_of_mirrors (inOrder_mirrors direction hstages)
    dsimp only
    split
    · exact breakOff_concur hsettings _ _
    · exact breakOff_concur hsettings _ _
    · split
      · exact breakOff_concur hsettings _ _
      · split
        · exact breakOff_concur hsettings _ _
        · exact ⟨mirrors_of_atRest (atRest_of_relay hown) (atRest_of_relay hown') rfl hsettings, rfl⟩
  next => exact refuse_concur h _

theorem atRest_abandon (stages : List Stage) : AtRest ⟨abandon stages, .failed⟩ :=
  atRest_breakOff stages (.usage .chainUnbound) none

theorem fail_concur (h : c.Mirrors c') : Concur c.fail c'.fail := by
  have hsettings := ((setup_abandon c.stages).trans h.settings).trans (setup_abandon c'.stages).symm
  have hmirrors : Mirrors ⟨abandon c.stages, .failed⟩ ⟨abandon c'.stages, .failed⟩ :=
    mirrors_of_atRest (atRest_abandon _) (atRest_abandon _) rfl hsettings
  unfold fail
  rw [← h.phase, ← h.session]
  split
  · split
    · exact ⟨hmirrors, rfl⟩
    · exact ⟨hmirrors, rfl⟩
  · exact refuse_concur h _

/-- Two chains at rest with the same settings start alike, if the contexts serve their codecs
alike. -/
theorem start_concur (hsettings : c.setup = c'.setup) (hc : c.AtRest) (hc' : c'.AtRest)
    {direction : Direction} {ctx ctx' : CryptoContext}
    (hctx : ∀ s ∈ c.stages, s.engine.codec.MeetsAlike direction ctx ctx') (sink : Sink) :
    Concur (c.start direction sink ctx).2 (c'.start direction sink ctx').2 := by
  have hinOrder : (inOrder direction c.stages).map Stage.setup =
      (inOrder direction c'.stages).map Stage.setup := by
    cases direction with
    | encode => exact hsettings
    | decode =>
      simp only [inOrder, List.map_reverse]
      exact congrArg List.reverse hsettings
  have halike := startStages_alike direction hinOrder
    (fun s hs => hc.2 s (mem_inOrder.1 hs)) (fun s hs => hc'.2 s (mem_inOrder.1 hs))
    (fun s hs => hctx s (mem_inOrder.1 hs))
  have hsetup := map_setup_inOrder (setup_startStages direction (inOrder direction c.stages) ctx)
  have hsetup' := map_setup_inOrder
    (setup_startStages direction (inOrder direction c'.stages) ctx')
  simp only [start, hc.1, hc'.1, Bool.false_eq_true, ↓reduceIte]
  revert halike hsetup hsetup'
  rcases startStages direction (inOrder direction c.stages) ctx with ⟨ctx₁, stages, error⟩
  rcases startStages direction (inOrder direction c'.stages) ctx' with ⟨ctx₂, stages', error'⟩
  rintro ⟨⟨⟩, hstages⟩ hsetup hsetup'
  cases error with
  | some e => exact breakOff_concur ((hsetup.trans hsettings).trans hsetup'.symm) e _
  | none => exact ⟨mirrors_of_active (inOrder_mirrors direction (hstages rfl)), rfl⟩

theorem start_concur_of_mirrors (h : c.Mirrors c') (ctx : CryptoContext) (direction : Direction)
    (sink : Sink) : Concur (c.start direction sink ctx).2 (c'.start direction sink ctx).2 := by
  by_cases hp : c.phase.isActive
  · have hp' : c'.phase.isActive := h.phase ▸ hp
    simp only [start, hp, hp', ↓reduceIte]
    exact ⟨h, rfl⟩
  · obtain ⟨hrest, hrest'⟩ := h.rest (Bool.eq_false_iff.2 hp)
    exact start_concur h.settings hrest hrest' (fun _ _ => Codec.meetsAlike_self) sink

theorem oneShot_concur {ctx ctx' : CryptoContext} {direction : Direction} {sink : Sink}
    (h : Concur (c.start direction sink ctx).2 (c'.start direction sink ctx').2) (data : Bytes) :
    Concur (c.oneShot direction sink data ctx).2 (c'.oneShot direction sink data ctx').2 := by
  unfold oneShot
  revert h
  rcases c.start direction sink ctx with ⟨ctx₁, c₁, reply⟩
  rcases c'.start direction sink ctx' with ⟨ctx₂, c₂, reply'⟩
  rintro ⟨hstart, ⟨⟩⟩
  cases reply with
  | done =>
    have hblock := block_concur hstart direction data
    dsimp only
    revert hblock
    rcases c₁.block direction data with ⟨c₃, reply⟩
    rcases c₂.block direction data with ⟨c₄, reply'⟩
    rintro ⟨hmirrors, ⟨⟩⟩
    cases reply with
    | done => exact finish_concur hmirrors direction
    | returned | refused | broken => exact ⟨hmirrors, rfl⟩
  | returned | refused | broken => exact ⟨hstart, rfl⟩

theorem perform_concur (h : c.Mirrors c') (ctx : CryptoContext) (a : ChainAction) :
    Concur (a.perform ctx c).2 (a.perform ctx c').2 := by
  cases a with
  | start direction sink => exact start_concur_of_mirrors h ctx direction sink
  | block direction data => exact block_concur h direction data
  | finish direction => exact finish_concur h direction
  | oneShot direction sink data =>
    exact oneShot_concur (start_concur_of_mirrors h ctx direction sink) data
  | fail => exact fail_concur h

theorem opening_concur (hsettings : c.setup = c'.setup) (hc : c.AtRest) (hc' : c'.AtRest)
    {direction : Direction} {ctx ctx' : CryptoContext}
    (hctx : ∀ s ∈ c.stages, s.engine.codec.MeetsAlike direction ctx ctx') (data? : Option Bytes)
    (sink : Sink) :
    Concur ((ChainAction.opening direction data? sink).perform ctx c).2
      ((ChainAction.opening direction data? sink).perform ctx' c').2 := by
  have hstart := start_concur hsettings hc hc' hctx sink
  cases data? with
  | none => exact hstart
  | some data => exact oneShot_concur hstart data

theorem Mirrors.answers (h : c.Mirrors c') (calls : List (CryptoContext × ChainAction)) :
    c.answers calls = c'.answers calls := by
  induction calls generalizing c c' with
  | nil => rfl
  | cons call calls ih =>
    obtain ⟨ctx, a⟩ := call
    obtain ⟨hmirrors, hreply⟩ := perform_concur h ctx a
    rw [answers_cons, answers_cons, hreply, hmirrors.session, ih hmirrors]

end

section
variable {setup : List (Codec × Option DecodeParms)} {c : Chain}

theorem atRest_ofSetup (setup : List (Codec × Option DecodeParms)) : (ofSetup setup).AtRest := by
  refine ⟨rfl, ?_⟩
  intro s hs
  obtain ⟨stage, -, rfl⟩ := List.mem_map.1 hs
  rfl

theorem setup_ofSetup_setup (setup : List (Codec × Option DecodeParms)) :
    (ofSetup (ofSetup setup).setup).setup = (ofSetup setup).setup := by
  simp only [Chain.setup, ofSetup, List.map_map]
  apply List.map_congr_left
  intro stage _
  simp [Stage.setup]

/-- When its session is over, so are those of the stages. -/
theorem Reachable.mirrors_self (h : Reachable setup c) : c.Mirrors c := by
  induction h with
  | new => exact mirrors_of_atRest (atRest_ofSetup setup) (atRest_ofSetup setup) rfl rfl
  | call _ ctx a ih => exact (perform_concur ih ctx a).1
  | amid _ _ _ _ rest _ _ _ => exact mirrors_of_atRest rest rest rfl rfl

theorem meetsAlike_stages {ctx ctx' : CryptoContext} (h : c.setup = (ofSetup setup).setup)
    (hctx : ∀ stage ∈ setup, stage.1.MeetsAlike direction ctx ctx') :
    ∀ s ∈ c.stages, s.engine.codec.MeetsAlike direction ctx ctx' := by
  intro s hs
  have hmem : s.setup ∈ (ofSetup setup).setup := h ▸ List.mem_map_of_mem hs
  simp only [Chain.setup, ofSetup, List.map_map] at hmem
  obtain ⟨stage, hstage, heq⟩ := List.mem_map.1 hmem
  have hfresh : stage.1.fresh = s.engine.codec.fresh := congrArg Prod.fst heq
  rw [← Codec.meetsAlike_fresh, ← hfresh, Codec.meetsAlike_fresh]
  exact hctx stage hstage

/-- After any history that leaves no session open, a session and all that follows it get the answers
that they would get from a new chain of the same stages. -/
theorem Reachable.answers_eq_new (h : Reachable setup c) (hp : c.phase.isActive = false)
    {direction : Direction} {ctx ctx' : CryptoContext}
    (hctx : ∀ stage ∈ setup, stage.1.MeetsAlike direction ctx ctx') (data? : Option Bytes)
    (sink : Sink) (calls : List (CryptoContext × ChainAction)) :
    c.answers ((ctx, .opening direction data? sink) :: calls) =
      (ofSetup (ofSetup setup).setup).answers
        ((ctx', .opening direction data? sink) :: calls) := by
  have hsettings := h.settings.trans (setup_ofSetup_setup setup).symm
  obtain ⟨hrest, -⟩ := h.mirrors_self.rest hp
  obtain ⟨hmirrors, hreply⟩ := opening_concur hsettings hrest (atRest_ofSetup _)
    (meetsAlike_stages h.settings hctx) data? sink
  rw [answers_cons, answers_cons, hreply, hmirrors.session, hmirrors.answers]

end

end Chain

/-- Every begin starts a clean session. After any history of calls that leaves no session open, the
next session of an engine, call by call, gets the answers and puts out the bytes that it would on a
new engine with the same settings; and so does everything that follows. The same holds for a chain
and a new chain of the same stages. Where a Crypt codec is involved, both contexts have to offer the
same ciphers and, if it is to encode with no IV of its own, the same entropy. -/
theorem nextSession_eq_new :
    (∀ (codec : Codec) (e : Engine), Engine.Reachable codec e → e.phase.isActive = false →
      ∀ (direction : Direction) (ctx ctx' : CryptoContext), codec.MeetsAlike direction ctx ctx' →
      ∀ (parms : Option DecodeParms) (data? : Option Bytes) (sink : Sink)
        (calls : List (CryptoContext × EngineAction)),
        e.answers ((ctx, .opening direction parms data? sink) :: calls) =
          ({ codec := codec.fresh } : Engine).answers
            ((ctx', .opening direction parms data? sink) :: calls)) ∧
    ∀ (setup : List (Codec × Option DecodeParms)) (c : Chain), Chain.Reachable setup c →
      c.phase.isActive = false →
      ∀ (direction : Direction) (ctx ctx' : CryptoContext),
      (∀ stage ∈ setup, stage.1.MeetsAlike direction ctx ctx') →
      ∀ (data? : Option Bytes) (sink : Sink)
        (calls : List (CryptoContext × ChainAction)),
        c.answers ((ctx, .opening direction data? sink) :: calls) =
          (Chain.ofSetup (Chain.ofSetup setup).setup).answers
            ((ctx', .opening direction data? sink) :: calls) := by
  constructor
  · intro codec e he hp direction ctx ctx' hctx
    exact he.answers_eq_new hp hctx
  · intro setup c hc hp direction ctx ctx' hctx
    exact hc.answers_eq_new hp hctx

theorem nextSession_eq_new_crypt :
    let codec : Codec := .crypt { cipher := .rc4, key := [1, 2, 3] }
    let e : Engine := (EngineAction.perform { tornDown := true } { codec }
      (.start .encode .buffer none)).2.1
    let setup : List (Codec × Option DecodeParms) := [(.ascii85 {}, none), (codec, none)]
    let c : Chain := (ChainAction.perform { tornDown := true } (Chain.ofSetup setup)
      (.oneShot .decode .buffer [1])).2.1
    let used : CryptoContext := ({} : CryptoContext).load.1
    e.phase = .failed ∧ c.phase = .failed ∧
      e.answers [(used, .opening .encode none (some [7]) .buffer)] =
        ({ codec := codec.fresh } : Engine).answers
          [({}, .opening .encode none (some [7]) .buffer)] ∧
      c.answers [(used, .opening .encode (some [7]) .buffer)] =
        (Chain.ofSetup (Chain.ofSetup setup).setup).answers
          [({}, .opening .encode (some [7]) .buffer)] := by
  intro codec e setup c used
  have hctx (codec : Codec) : codec.MeetsAlike .encode used {} :=
    Codec.meetsAlike_of_matches (CryptoContext.load_matches {}) rfl
  have he : e.phase = .failed := rfl
  have hc : c.phase = .failed := rfl
  obtain ⟨hengine, hchain⟩ := nextSession_eq_new
  refine ⟨he, hc, ?_, ?_⟩
  · exact hengine codec e (.call .new _ _) (by rw [he]; rfl) .encode used {} (hctx codec) _ _ _ _
  · exact hchain setup c (.call .new _ _) (by rw [hc]; rfl) .encode used {}
      (fun stage _ => hctx stage.1) _ _ _

end PdfStream
