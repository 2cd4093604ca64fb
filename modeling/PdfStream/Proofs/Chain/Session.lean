import PdfStream.Proofs.Engine.Buffered

/-!
Sessions of a chain over any number of blocks. What leaves the last stage, together with what the
stages still make of the data to come, is at any time what the codecs make of all the data one after
the other.
-/
namespace PdfStream

/-- Only a finished session has put anything out. -/
theorem Reply.exists_returned {reply : Reply} {out : Bytes} (h : reply.output = .ok out)
    (hout : out ≠ []) : ∃ sink, reply = .returned sink ∧ sink.content = out := by
  cases reply with
  | done =>
    cases h
    exact absurd rfl hout
  | returned sink => exact ⟨sink, rfl, Except.ok.inj h⟩
  | refused | broken => cases h

/-- The settings of a stage, which its sessions leave alone. -/
def Stage.setup (s : Stage) : Codec × Option DecodeParms := (s.engine.codec.fresh, s.parms)

/-- The parameters of a session. Encoding has none. -/
def Stage.parmsFor (direction : Direction) (s : Stage) : Option DecodeParms :=
  match direction with
  | .encode => none
  | .decode => s.parms

namespace Chain
variable {direction : Direction} {stages : List Stage}

theorem inOrder_inOrder (direction : Direction) (stages : List Stage) :
    inOrder direction (inOrder direction stages) = stages := by
  cases direction with
  | encode => rfl
  | decode => exact stages.reverse_reverse

theorem mem_inOrder {s : Stage} : s ∈ inOrder direction stages ↔ s ∈ stages := by
  cases direction with
  | encode => rfl
  | decode => exact List.mem_reverse

theorem map_setup_inOrder {stages' : List Stage}
    (h : stages'.map Stage.setup = (inOrder direction stages).map Stage.setup) :
    (inOrder direction stages').map Stage.setup = stages.map Stage.setup := by
  cases direction with
  | encode => exact h
  | decode =>
    rw [inOrder, List.map_reverse, h, inOrder, List.map_reverse, List.reverse_reverse]

section
variable {work : Engine → Bytes → Engine × Except Error Bytes} {s : Stage} {data : Bytes}
  {engine : Engine}

theorem relay_of_error {e : Error} (h : work s.engine data = (engine, .error e)) :
    relay work data (s :: stages) = ({ s with engine } :: stages, .error e) := by
  rw [relay, h]

theorem relay_of_ok {out : Bytes} (h : work s.engine data = (engine, .ok out))
    {stages' : List Stage} {result : Except Error Bytes}
    (hrelay : relay work out stages = (stages', result)) :
    relay work data (s :: stages) = ({ s with engine } :: stages', result) := by
  rw [relay, h]
  dsimp only
  rw [hrelay]

end

def AllOpen (direction : Direction) (stages : List Stage) : Prop :=
  ∀ s ∈ stages, s.engine.IsOpen direction

/-- What all stages still make of the data to come, if there are any, each of what the one before
puts out. -/
def restAll (direction : Direction) : List Stage → Option Bytes → Option Bytes
  | [], data => data
  | s :: stages, data => restAll direction stages (data.bind (s.engine.rest direction))

theorem restAll_none (direction : Direction) (stages : List Stage) :
    restAll direction stages none = none := by
  induction stages with
  | nil => rfl
  | cons s stages ih => exact ih

/-- What comes of the data that reach a stage goes by these data alone, for every stage that any
reach. -/
def AllSteady (direction : Direction) : List Stage → Option Bytes → Prop
  | [], _ => True
  | s :: stages, data => (∀ d ∈ data, s.engine.IsSteady direction d) ∧
      AllSteady direction stages (data.bind (s.engine.rest direction))

theorem allSteady_none (direction : Direction) (stages : List Stage) :
    AllSteady direction stages none := by
  induction stages with
  | nil => trivial
  | cons s stages ih => exact ⟨nofun, ih⟩

/-- By induction on the stages: what one stage puts out is a block for the next. Where a stage is to
fail later on, the stages behind it have nothing more to come. -/
theorem relay_pump_spec (h : AllOpen direction stages) (data : Bytes) (more : Option Bytes)
    (hsteady : AllSteady direction stages (more.map (data ++ ·))) :
    (∃ stages' e, relay (pumpEngine direction) data stages = (stages', .error e) ∧
      restAll direction stages (more.map (data ++ ·)) = none) ∨
    ∃ stages' out, relay (pumpEngine direction) data stages = (stages', .ok out) ∧
      AllOpen direction stages' ∧ AllSteady direction stages' more ∧
      stages'.map Stage.setup = stages.map Stage.setup ∧
      restAll direction stages (more.map (data ++ ·)) =
        (restAll direction stages' more).map (out ++ ·) := by
  induction stages generalizing data more with
  | nil => exact .inr ⟨[], data, rfl, h, trivial, rfl, rfl⟩
  | cons s stages ih =>
    obtain ⟨hs, hrest⟩ := List.forall_mem_cons.1 h
    obtain ⟨hown, hlater⟩ := hsteady
    have hall (d : Bytes) (hd : d ∈ more) : s.engine.IsSteady direction (data ++ d) :=
      hown _ (Option.mem_map_of_mem _ hd)
    rcases Engine.pump_spec hs data with ⟨engine, e, hpump, hnone⟩ |
      ⟨engine, out, hpump, hopen, hfresh, hmore⟩
    · left
      refine ⟨_, e, relay_of_error hpump, ?_⟩
      cases more with
      | none => exact restAll_none direction stages
      | some d =>
        rw [Option.map_some, restAll, Option.bind_some, hnone d (hall d rfl)]
        exact restAll_none direction stages
    · have hshare : (more.map (data ++ ·)).bind (s.engine.rest direction) =
          (more.bind (engine.rest direction)).map (out ++ ·) := by
        cases more with
        | none => rfl
        | some d => exact (hmore d (hall d rfl)).2
      rw [hshare] at hlater
      rw [restAll, hshare]
      rcases ih hrest out _ hlater with ⟨stages', e, hrelay, hnone⟩ |
        ⟨stages', out', hrelay, hopen', hsteady', hsetup, hmore'⟩
      · exact .inl ⟨_, e, relay_of_ok hpump hrelay, hnone⟩
      · right
        refine ⟨_, out', relay_of_ok hpump hrelay, List.forall_mem_cons.2 ⟨hopen, hopen'⟩,
          ⟨fun d hd => (hmore d (hall d hd)).1, hsteady'⟩, ?_, hmore'⟩
        rw [List.map_cons, List.map_cons, hsetup, Stage.setup, Stage.setup, hfresh]

/-- By induction on the stages: each ends after the last output of the one before. -/
theorem relay_finish_spec (h : AllOpen direction stages) (data : Bytes) :
    (∃ stages' e, relay (finishEngine direction) data stages = (stages', .error e) ∧
      restAll direction stages (some data) = none) ∨
    ∃ stages' out, relay (finishEngine direction) data stages = (stages', .ok out) ∧
      (∀ s ∈ stages', s.engine.session = .idle) ∧
      stages'.map Stage.setup = stages.map Stage.setup ∧
      restAll direction stages (some data) = some out := by
  induction stages generalizing data with
  | nil => exact .inr ⟨[], data, rfl, fun s hs => absurd hs List.not_mem_nil, rfl, rfl⟩
  | cons s stages ih =>
    obtain ⟨hs, hrest⟩ := List.forall_mem_cons.1 h
    rcases Engine.finish_spec hs data with ⟨engine, e, hfinish, hnone⟩ |
      ⟨engine, out, hfinish, hidle, hfresh, hout⟩
    · left
      refine ⟨_, e, relay_of_error hfinish, ?_⟩
      rw [restAll, Option.bind_some, hnone]
      exact restAll_none direction stages
    · rcases ih hrest out with ⟨stages', e, hrelay, hnone⟩ |
        ⟨stages', out', hrelay, hidle', hsetup, hout'⟩
      · left
        refine ⟨_, e, relay_of_ok hfinish hrelay, ?_⟩
        rw [restAll, Option.bind_some, hout, hnone]
      · right
        refine ⟨_, out', relay_of_ok hfinish hrelay, ?_, ?_, ?_⟩
        · exact List.forall_mem_cons.2 ⟨hidle, hidle'⟩
        · rw [List.map_cons, List.map_cons, hsetup, Stage.setup, Stage.setup, hfresh]
        · rw [restAll, Option.bind_some, hout, hout']

/-- No session is open, neither of the chain nor of a stage. -/
def AtRest (c : Chain) : Prop :=
  c.phase.isActive = false ∧ ∀ s ∈ c.stages, s.engine.phase.isActive = false

/-- The chain's sink is a buffer, and each stage has an open session on a buffer of its own. -/
structure IsOpen (direction : Direction) (c : Chain) : Prop where
  bound : ∃ sink, c.session = .active direction sink ∧ sink.IsBuffer
  stages : AllOpen direction c.stages

def setup (c : Chain) : List (Codec × Option DecodeParms) := c.stages.map Stage.setup

/-- What the chain's sink will hold in the end if `data` are still to come. -/
def rest (direction : Direction) (c : Chain) (data : Bytes) : Option Bytes :=
  (restAll direction (inOrder direction c.stages) (some data)).map (c.session.held ++ ·)

/-- What comes of the open sessions goes by these data alone, not by their blocks. -/
def IsSteady (direction : Direction) (c : Chain) (data : Bytes) : Prop :=
  AllSteady direction (inOrder direction c.stages) (some data)

theorem allOpen_inOrder : AllOpen direction (inOrder direction stages) ↔
    AllOpen direction stages := by
  constructor
  · exact fun h s hs => h s (mem_inOrder.2 hs)
  · exact fun h s hs => h s (mem_inOrder.1 hs)

theorem phase_fail (e : Engine) : e.fail.1.phase.isActive = false := by
  unfold Engine.fail
  split
  · split <;> rfl
  · exact Bool.eq_false_iff.2 ‹_›

theorem atRest_breakOff (stages : List Stage) (error : Error) (sink : Option Sink) :
    (breakOff stages error sink).1.AtRest := by
  refine ⟨rfl, ?_⟩
  intro s hs
  obtain ⟨s', -, rfl⟩ := List.mem_map.1 hs
  exact phase_fail s'.engine

/-- The session came to nothing and let go of everything. -/
def Breaks (outcome : Chain × Reply) : Prop :=
  ∃ c e sink, outcome = (c, .broken e sink) ∧ c.AtRest

theorem breaks_breakOff (stages : List Stage) (error : Error) (sink : Option Sink) :
    Breaks (breakOff stages error sink) :=
  ⟨_, error, sink, rfl, atRest_breakOff stages error sink⟩

/-- A block breaks the session off only if something fails on all the data, and otherwise leaves the
rest of it as it was. -/
theorem block_spec {c : Chain} (h : c.IsOpen direction) {data more : Bytes}
    (hsteady : c.IsSteady direction (data ++ more)) :
    (Breaks (c.block direction data) ∧ c.rest direction (data ++ more) = none) ∨
    ∃ c', c.block direction data = (c', .done) ∧ c'.IsOpen direction ∧
      c'.IsSteady direction more ∧ c'.setup = c.setup ∧
      c.rest direction (data ++ more) = c'.rest direction more := by
  obtain ⟨stages, session⟩ := c
  obtain ⟨⟨sink, rfl, hsink⟩, hall⟩ := h
  have hstages : AllOpen direction (inOrder direction stages) := allOpen_inOrder.2 hall
  rcases relay_pump_spec hstages data (some more) hsteady with
    ⟨stages', e, hrelay, hnone⟩ | ⟨stages', out, hrelay, hopen, hsteady', hsetup, hmore⟩
  · left
    constructor
    · simp only [block, phase, Session.active, ↓reduceIte, hrelay]
      exact breaks_breakOff _ _ _
    · rw [Option.map_some] at hnone
      rw [rest, hnone, Option.map_none]
  · obtain ⟨t, hput, ht, hcontent⟩ := Sink.put_of_isBuffer hsink out
    right
    refine ⟨⟨inOrder direction stages', .active direction t⟩, ?_,
      ⟨⟨t, rfl, ht⟩, allOpen_inOrder.2 hopen⟩, ?_, map_setup_inOrder hsetup, ?_⟩
    · simp only [block, phase, Session.active, ↓reduceIte, hrelay, hput]
    · rw [IsSteady, inOrder_inOrder]
      exact hsteady'
    · rw [Option.map_some] at hmore
      rw [rest, rest, hmore, inOrder_inOrder, Session.held_active, Session.held_active, hcontent,
        Option.map_map]
      congr 1
      funext rest
      rw [Function.comp_apply, List.append_assoc]

theorem finish_spec {c : Chain} (h : c.IsOpen direction) :
    (Breaks (c.finish direction) ∧ c.rest direction [] = none) ∨
    ∃ c' sink, c.finish direction = (c', .returned sink) ∧ c'.AtRest ∧ c'.phase = .idle ∧
      c'.setup = c.setup ∧ c.rest direction [] = some sink.content := by
  obtain ⟨stages, session⟩ := c
  obtain ⟨⟨sink, rfl, hsink⟩, hall⟩ := h
  have hstages : AllOpen direction (inOrder direction stages) := allOpen_inOrder.2 hall
  rcases relay_finish_spec hstages [] with ⟨stages', e, hrelay, hnone⟩ |
    ⟨stages', out, hrelay, hidle, hsetup, hout⟩
  · left
    constructor
    · simp only [finish, phase, Session.active, ↓reduceIte, hrelay]
      exact breaks_breakOff _ _ _
    · rw [rest, hnone, Option.map_none]
  · obtain ⟨t, hput, ht, hcontent⟩ := Sink.put_of_isBuffer hsink out
    obtain ⟨u, hflush, -, hsame⟩ := Sink.flush_of_isBuffer ht
    right
    refine ⟨⟨inOrder direction stages', .idle⟩, u, ?_, ⟨rfl, fun s hs => ?_⟩, rfl,
      map_setup_inOrder hsetup, ?_⟩
    · simp only [finish, phase, Session.active, ↓reduceIte, hrelay, hput, hflush]
    · rw [Engine.phase, hidle s (mem_inOrder.1 hs)]
      rfl
    · rw [rest, hout, Option.map_some, Session.held_active, hsame, hcontent]

/-- Feeds the blocks one by one, up to the first that fails. -/
def feed (direction : Direction) : List Bytes → Chain → Chain × Reply
  | [], c => (c, .done)
  | data :: blocks, c =>
    match c.block direction data with
    | (c, .done) => feed direction blocks c
    | outcome => outcome

/-- A start, any number of blocks and a finish, as far as it goes. -/
def runSession (c : Chain) (direction : Direction) (sink : Sink) (ctx : CryptoContext)
    (blocks : List Bytes) : CryptoContext × Chain × Reply :=
  match c.start direction sink ctx with
  | (ctx, c, .done) =>
    match c.feed direction blocks with
    | (c, .done) => (ctx, c.finish direction)
    | outcome => (ctx, outcome)
  | outcome => outcome

/-- The one-shot call is a session on one block. -/
theorem oneShot_eq_runSession (c : Chain) (direction : Direction) (sink : Sink) (data : Bytes)
    (ctx : CryptoContext) :
    c.oneShot direction sink data ctx = c.runSession direction sink ctx [data] := by
  unfold oneShot runSession
  rcases c.start direction sink ctx with ⟨ctx', c', reply⟩
  cases reply with
  | done =>
    simp only [feed]
    rcases c'.block direction data with ⟨c'', reply⟩
    cases reply <;> rfl
  | returned | refused | broken => rfl

/-- The codecs one after the other, each in a session of its own on all that the one before put out.
Each session takes the context as the one before left it. -/
def through (direction : Direction) : List Stage → CryptoContext → Bytes → Option Bytes
  | [], _, data => some data
  | s :: stages, ctx, data =>
    (s.engine.codec.oneShot direction ctx (s.parmsFor direction) data).toOption.bind
      (through direction stages (s.engine.codec.start direction ctx (s.parmsFor direction)).1)

/-- The blocks of these data do not matter for decoding: what reaches an LZW stage is calm. The stages
are in the order they decode in. -/
def ReadsCalm : List Stage → CryptoContext → Bytes → Prop
  | [], _, _ => True
  | s :: stages, ctx, data => s.engine.codec.ReadsCalm s.parms data ∧
      ∀ out ∈ (s.engine.codec.oneShot .decode ctx s.parms data).toOption,
        ReadsCalm stages (s.engine.codec.start .decode ctx s.parms).1 out

instance decidableReadsCalm : (stages : List Stage) → (ctx : CryptoContext) → (data : Bytes) →
    Decidable (ReadsCalm stages ctx data)
  | [], _, _ => isTrue trivial
  | s :: stages, ctx, data =>
    have := decidableReadsCalm stages (s.engine.codec.start .decode ctx s.parms).1
    inferInstanceAs (Decidable (s.engine.codec.ReadsCalm s.parms data ∧
      ∀ out ∈ (s.engine.codec.oneShot .decode ctx s.parms data).toOption, _))

section
variable {s : Stage} {ctx ctx' : CryptoContext} {engine : Engine} {reply : Reply}

theorem startStages_of_error
    (h : s.engine.start direction .buffer (s.parmsFor direction) ctx = (ctx', engine, reply))
    {e : Error} (he : reply.error? = some e) :
    startStages direction (s :: stages) ctx = (ctx', { s with engine } :: stages, some e) := by
  cases direction with
  | encode =>
    simp only [Stage.parmsFor] at h
    simp only [startStages, h, he]
  | decode =>
    simp only [Stage.parmsFor] at h
    simp only [startStages, h, he]

theorem startStages_of_done
    (h : s.engine.start direction .buffer (s.parmsFor direction) ctx = (ctx', engine, .done))
    {ctx'' : CryptoContext} {stages' : List Stage} {error : Option Error}
    (hstages : startStages direction stages ctx' = (ctx'', stages', error)) :
    startStages direction (s :: stages) ctx = (ctx'', { s with engine } :: stages', error) := by
  cases direction with
  | encode =>
    simp only [Stage.parmsFor] at h
    simp only [startStages, h, Reply.error?, hstages]
  | decode =>
    simp only [Stage.parmsFor] at h
    simp only [startStages, h, Reply.error?, hstages]

end

/-- By induction on the stages: each starts with the context as the one before left it. -/
theorem startStages_spec (h : ∀ s ∈ stages, s.engine.phase.isActive = false)
    (ctx : CryptoContext) :
    (∃ ctx' stages' e, startStages direction stages ctx = (ctx', stages', some e) ∧
      ∀ data, through direction stages ctx data = none) ∨
    ∃ ctx' stages', startStages direction stages ctx = (ctx', stages', none) ∧
      ctx'.Matches ctx ∧ AllOpen direction stages' ∧
      stages'.map Stage.setup = stages.map Stage.setup ∧
      (∀ data, through direction stages ctx data = restAll direction stages' (some data)) ∧
      ∀ data, (direction = .decode → ReadsCalm stages ctx data) →
        AllSteady direction stages' (some data) := by
  induction stages generalizing ctx with
  | nil =>
    exact .inr ⟨ctx, [], rfl, .refl ctx, fun s hs => absurd hs List.not_mem_nil, rfl,
      fun data => rfl, fun data _ => trivial⟩
  | cons s stages ih =>
    obtain ⟨hs, hrest⟩ := List.forall_mem_cons.1 h
    rcases Engine.start_spec hs direction (s.parmsFor direction) ctx with
      ⟨engine, e, sink, hstart, hnone⟩ | ⟨engine, hstart, hopen, hfresh, hshot, hsteady⟩
    · left
      refine ⟨_, _, e, startStages_of_error hstart rfl, ?_⟩
      intro data
      rw [through, hnone, Option.bind_none]
    · have hmatches := s.engine.codec.start_matches direction ctx (s.parmsFor direction)
      rcases ih hrest (s.engine.codec.start direction ctx (s.parmsFor direction)).1 with
        ⟨ctx', stages', e, hstages, hnone⟩ |
        ⟨ctx', stages', hstages, hmatches', hopen', hsetup, hthrough, hsteady'⟩
      · left
        refine ⟨_, _, e, startStages_of_done hstart hstages, ?_⟩
        intro data
        rw [through]
        cases (s.engine.codec.oneShot direction ctx (s.parmsFor direction) data).toOption with
        | none => rfl
        | some out => exact hnone out
      · right
        refine ⟨_, _, startStages_of_done hstart hstages, hmatches'.trans hmatches,
          List.forall_mem_cons.2 ⟨hopen, hopen'⟩, ?_, ?_, ?_⟩
        · rw [List.map_cons, List.map_cons, hsetup, Stage.setup, Stage.setup, hfresh]
        · intro data
          rw [through, restAll, Option.bind_some, hshot]
          cases engine.rest direction data with
          | none => exact (restAll_none direction stages').symm
          | some out => exact hthrough out
        · intro data hcalm
          refine ⟨?_, ?_⟩
          · rintro _ ⟨⟩
            refine hsteady data ?_
            rintro rfl
            exact (hcalm rfl).1
          · rw [Option.bind_some, ← hshot]
            cases hout : (s.engine.codec.oneShot direction ctx (s.parmsFor direction)
                data).toOption with
            | none => exact allSteady_none direction stages'
            | some out =>
              refine hsteady' out ?_
              rintro rfl
              exact (hcalm rfl).2 out hout

/-- A session that starts well makes of its data what the codecs make of them one after the other. -/
theorem start_spec {c : Chain} (h : c.AtRest) (direction : Direction) (ctx : CryptoContext) :
    (∃ ctx' outcome, c.start direction .buffer ctx = (ctx', outcome) ∧ Breaks outcome ∧
      ∀ data, through direction (inOrder direction c.stages) ctx data = none) ∨
    ∃ ctx' c', c.start direction .buffer ctx = (ctx', c', .done) ∧ ctx'.Matches ctx ∧
      c'.IsOpen direction ∧ c'.setup = c.setup ∧
      (∀ data, through direction (inOrder direction c.stages) ctx data =
        c'.rest direction data) ∧
      ∀ data, (direction = .decode → ReadsCalm (inOrder direction c.stages) ctx data) →
        c'.IsSteady direction data := by
  obtain ⟨hphase, hall⟩ := h
  have hstages : ∀ s ∈ inOrder direction c.stages, s.engine.phase.isActive = false :=
    fun s hs => hall s (mem_inOrder.1 hs)
  rcases startStages_spec hstages ctx with ⟨ctx', stages', e, hstart, hnone⟩ |
    ⟨ctx', stages', hstart, hmatches, hopen, hsetup, hthrough, hsteady⟩
  · left
    refine ⟨ctx', _, ?_, breaks_breakOff (inOrder direction stages') e (some .buffer), hnone⟩
    simp only [start, hphase, hstart]
    rfl
  · right
    refine ⟨ctx', ⟨inOrder direction stages', .active direction .buffer⟩, ?_, hmatches,
      ⟨⟨_, rfl, rfl⟩, allOpen_inOrder.2 hopen⟩, map_setup_inOrder hsetup, ?_, ?_⟩
    · simp only [start, hphase, hstart]
      rfl
    · intro data
      rw [hthrough, rest, inOrder_inOrder, Session.held_active]
      exact Option.map_id'.symm
    · intro data hcalm
      rw [IsSteady, inOrder_inOrder]
      exact hsteady data hcalm

/-- By induction on the blocks: each takes its share of the rest of the session. -/
theorem feed_spec {c : Chain} (h : c.IsOpen direction) {blocks : List Bytes}
    (hsteady : c.IsSteady direction blocks.flatten) :
    (Breaks (c.feed direction blocks) ∧ c.rest direction blocks.flatten = none) ∨
    ∃ c', c.feed direction blocks = (c', .done) ∧ c'.IsOpen direction ∧ c'.setup = c.setup ∧
      c.rest direction blocks.flatten = c'.rest direction [] := by
  induction blocks generalizing c with
  | nil => exact .inr ⟨c, rfl, h, rfl, rfl⟩
  | cons data blocks ih =>
    rw [List.flatten_cons] at hsteady
    rw [feed, List.flatten_cons]
    rcases block_spec h hsteady with ⟨⟨c₁, e, sink, hblock, hrest⟩, hnone⟩ |
      ⟨c₁, hblock, hopen, hsteady', hsetup, hmore⟩
    · rw [hblock]
      exact .inl ⟨⟨c₁, e, sink, rfl, hrest⟩, hnone⟩
    · rw [hblock, hmore]
      rcases ih hopen hsteady' with hbroken | ⟨c₂, hrun, hopen', hsetup', hmore'⟩
      · exact .inl hbroken
      · exact .inr ⟨c₂, hrun, hopen', hsetup'.trans hsetup, hmore'⟩

/-- A session on an empty buffer breaks off if the codecs one after the other fail on all the data,
and otherwise returns what they make of it. Either way the chain is at rest again. Decoding takes
calm data for that. -/
theorem runSession_spec {c : Chain} (h : c.AtRest) (direction : Direction) (ctx : CryptoContext)
    (blocks : List Bytes)
    (hcalm : direction = .decode → ReadsCalm (inOrder direction c.stages) ctx blocks.flatten) :
    (Breaks (c.runSession direction .buffer ctx blocks).2 ∧
      through direction (inOrder direction c.stages) ctx blocks.flatten = none) ∨
    ∃ ctx' c' sink, c.runSession direction .buffer ctx blocks = (ctx', c', .returned sink) ∧
      ctx'.Matches ctx ∧ c'.AtRest ∧ c'.phase = .idle ∧ c'.setup = c.setup ∧
      through direction (inOrder direction c.stages) ctx blocks.flatten = some sink.content := by
  rcases start_spec h direction ctx with ⟨ctx', outcome, hstart, hbreaks, hnone⟩ |
    ⟨ctx', c₁, hstart, hmatches, hopen, hsetup, hthrough, hsteady⟩
  · left
    refine ⟨?_, hnone _⟩
    obtain ⟨c₁, e, sink, rfl, hrest⟩ := hbreaks
    rw [runSession, hstart]
    exact ⟨c₁, e, sink, rfl, hrest⟩
  rw [hthrough]
  rcases feed_spec hopen (hsteady _ hcalm) with ⟨⟨c₂, e, sink, hfeed, hrest⟩, hnone⟩ |
    ⟨c₂, hfeed, hopen', hsetup', hmore⟩
  · left
    refine ⟨?_, hnone⟩
    simp only [runSession, hstart, hfeed]
    exact ⟨c₂, e, sink, rfl, hrest⟩
  have hrun : c.runSession direction .buffer ctx blocks = (ctx', c₂.finish direction) := by
    simp only [runSession, hstart, hfeed]
  rw [hmore, hrun]
  rcases finish_spec hopen' with ⟨hbreaks, hnone⟩ |
    ⟨c₃, sink, hfinish, hrest, hidle, hsetup'', hout⟩
  · exact .inl ⟨hbreaks, hnone⟩
  · right
    refine ⟨ctx', c₃, sink, ?_, hmatches, hrest, hidle,
      (hsetup''.trans hsetup').trans hsetup, hout⟩
    rw [hfinish]

end Chain
end PdfStream
