import PdfStream.Proofs.Chain.Session
import PdfStream.Proofs.Engine.History

/-!
Histories of a chain: calls in any order, and what none of them changes. The settings of the stages
are at any time those that the chain was built with.
-/
namespace PdfStream

/-- A call on a chain. -/
inductive ChainAction where
  | start (direction : Direction) (sink : Sink)
  | block (direction : Direction) (data : Bytes)
  | finish (direction : Direction)
  | oneShot (direction : Direction) (sink : Sink) (data : Bytes)
  | fail

namespace ChainAction

def perform (ctx : CryptoContext) (c : Chain) : ChainAction → CryptoContext × Chain × Reply
  | .start direction sink => c.start direction sink ctx
  | .block direction data => (ctx, c.block direction data)
  | .finish direction => (ctx, c.finish direction)
  | .oneShot direction sink data => c.oneShot direction sink data ctx
  | .fail => (ctx, c.fail)

/-- The call that opens a session: a start, or a one-shot call if the data come with it. -/
def opening (direction : Direction) (data? : Option Bytes) (sink : Sink) : ChainAction :=
  match data? with
  | none => .start direction sink
  | some data => .oneShot direction sink data

end ChainAction

namespace Chain

/-- A new chain with these codecs and parameters, in encode order. -/
def ofSetup (setup : List (Codec × Option DecodeParms)) : Chain :=
  { stages := setup.map fun (codec, parms) => { engine := { codec }, parms } }

/-- What each call answers, and the session as it leaves it. -/
def answers : Chain → List (CryptoContext × ChainAction) → List (Reply × Session)
  | _, [] => []
  | c, (ctx, a) :: calls =>
    let (_, c, reply) := a.perform ctx c
    (reply, c.session) :: c.answers calls

theorem answers_cons (c : Chain) (ctx : CryptoContext) (a : ChainAction)
    (calls : List (CryptoContext × ChainAction)) : c.answers ((ctx, a) :: calls) =
      ((a.perform ctx c).2.2, (a.perform ctx c).2.1.session) ::
        (a.perform ctx c).2.1.answers calls := rfl

theorem setup_withEngine {s : Stage} {engine : Engine}
    (h : engine.codec.fresh = s.engine.codec.fresh) : ({ s with engine } : Stage).setup = s.setup := by
  rw [Stage.setup, Stage.setup, h]

theorem setup_abandon (stages : List Stage) :
    (abandon stages).map Stage.setup = stages.map Stage.setup := by
  simp only [abandon, List.map_map]
  apply List.map_congr_left
  intro s _
  exact setup_withEngine s.engine.fresh_fail

theorem startStages_cons (direction : Direction) (s : Stage) (stages : List Stage)
    (ctx : CryptoContext) : startStages direction (s :: stages) ctx =
      match s.engine.start direction .buffer (s.parmsFor direction) ctx with
      | (ctx, engine, reply) =>
        match reply.error? with
        | some e => (ctx, { s with engine } :: stages, some e)
        | none =>
          let (ctx, stages, error) := startStages direction stages ctx
          (ctx, { s with engine } :: stages, error) := by cases direction <;> rfl

theorem setup_startStages (direction : Direction) (stages : List Stage) (ctx : CryptoContext) :
    (startStages direction stages ctx).2.1.map Stage.setup = stages.map Stage.setup := by
  induction stages generalizing ctx with
  | nil => rfl
  | cons s stages ih =>
    have hstart := s.engine.fresh_start direction .buffer (s.parmsFor direction) ctx
    rw [startStages_cons]
    revert hstart
    rcases s.engine.start direction .buffer (s.parmsFor direction) ctx with ⟨ctx', engine, reply⟩
    intro hstart
    dsimp only
    split
    · simp only [List.map_cons, setup_withEngine hstart]
    · simp only [List.map_cons, setup_withEngine hstart, ih]

theorem setup_relay {work : Engine → Bytes → Engine × Except Error Bytes}
    (hwork : ∀ e data, (work e data).1.codec.fresh = e.codec.fresh) (data : Bytes)
    (stages : List Stage) : (relay work data stages).1.map Stage.setup = stages.map Stage.setup := by
  induction stages generalizing data with
  | nil => rfl
  | cons s stages ih =>
    have hown := hwork s.engine data
    rw [relay]
    revert hown
    rcases work s.engine data with ⟨engine, e | out⟩
    · intro hown
      simp only [List.map_cons, setup_withEngine hown]
    · intro hown
      simp only [List.map_cons, setup_withEngine hown, ih]

theorem fresh_drain (e : Engine) : e.drain.1.codec.fresh = e.codec.fresh := by
  unfold Engine.drain
  split <;> rfl

theorem fresh_pumpEngine (direction : Direction) (e : Engine) (data : Bytes) :
    (pumpEngine direction e data).1.codec.fresh = e.codec.fresh := by
  have hblock := e.fresh_block direction data
  unfold pumpEngine
  dsimp only
  split
  · exact hblock
  · exact (fresh_drain _).trans hblock

theorem fresh_finishEngine (direction : Direction) (e : Engine) (data : Bytes) :
    (finishEngine direction e data).1.codec.fresh = e.codec.fresh := by
  have hblock := e.fresh_block direction data
  unfold finishEngine
  dsimp only
  split
  · exact hblock
  · exact (Engine.fresh_finish _ direction).trans hblock

theorem setup_breakOff (stages : List Stage) (error : Error) (sink : Option Sink) :
    (breakOff stages error sink).1.setup = stages.map Stage.setup := setup_abandon stages

theorem setup_start (c : Chain) (direction : Direction) (sink : Sink) (ctx : CryptoContext) :
    (c.start direction sink ctx).2.1.setup = c.setup := by
  have hstages := map_setup_inOrder (setup_startStages direction (inOrder direction c.stages) ctx)
  unfold start
  split
  · rfl
  · dsimp only
    split
    · exact (setup_breakOff _ _ _).trans hstages
    · exact hstages

theorem setup_block (c : Chain) (direction : Direction) (data : Bytes) :
    (c.block direction data).1.setup = c.setup := by
  have hstages := map_setup_inOrder
    (setup_relay (fresh_pumpEngine direction) data (inOrder direction c.stages))
  unfold block
  split
  · dsimp only
    split
    · exact (setup_breakOff _ _ _).trans hstages
    · exact (setup_breakOff _ _ _).trans hstages
    · split
      · exact (setup_breakOff _ _ _).trans hstages
      · exact hstages
  · rfl

theorem setup_finish (c : Chain) (direction : Direction) :
    (c.finish direction).1.setup = c.setup := by
  have hstages := map_setup_inOrder
    (setup_relay (fresh_finishEngine direction) [] (inOrder direction c.stages))
  unfold finish
  split
  · dsimp only
    split
    · exact (setup_breakOff _ _ _).trans hstages
    · exact (setup_breakOff _ _ _).trans hstages
    · split
      · exact (setup_breakOff _ _ _).trans hstages
      · split
        · exact (setup_breakOff _ _ _).trans hstages
        · exact hstages
  · rfl

theorem setup_fail (c : Chain) : c.fail.1.setup = c.setup := by
  unfold fail
  split
  · split
    · exact setup_abandon c.stages
    · exact setup_abandon c.stages
  · rfl

theorem setup_oneShot (c : Chain) (direction : Direction) (sink : Sink) (data : Bytes)
    (ctx : CryptoContext) : (c.oneShot direction sink data ctx).2.1.setup = c.setup := by
  have hstart := c.setup_start direction sink ctx
  unfold oneShot
  revert hstart
  rcases c.start direction sink ctx with ⟨ctx', c₁, reply⟩
  intro hstart
  cases reply with
  | done =>
    have hblock := (c₁.setup_block direction data).trans hstart
    dsimp only
    revert hblock
    rcases c₁.block direction data with ⟨c₂, reply⟩
    intro hblock
    cases reply with
    | done => exact (c₂.setup_finish direction).trans hblock
    | returned | refused | broken => exact hblock
  | returned | refused | broken => exact hstart

theorem setup_perform (c : Chain) (ctx : CryptoContext) (a : ChainAction) :
    (a.perform ctx c).2.1.setup = c.setup := by
  cases a with
  | start direction sink => exact c.setup_start direction sink ctx
  | block direction data => exact c.setup_block direction data
  | finish direction => exact c.setup_finish direction
  | oneShot direction sink data => exact c.setup_oneShot direction sink data ctx
  | fail => exact c.setup_fail

/-- The chains that calls can make of a new one. -/
inductive Reachable (setup : List (Codec × Option DecodeParms)) : Chain → Prop
  | new : Reachable setup (ofSetup setup)
  | call {c : Chain} (before : Reachable setup c) (ctx : CryptoContext) (a : ChainAction) :
    Reachable setup (a.perform ctx c).2.1
  /-- Where a failure comes amid the work of a codec, its stage may stop anywhere. All sessions are
  over, and only the settings are sure to be what they were. -/
  | amid {c : Chain} (before : Reachable setup c) (ctx : CryptoContext) (a : ChainAction)
    {error : Error} {sink? : Option Sink} (broken : (a.perform ctx c).2.2 = .broken error sink?)
    {c' : Chain} (rest : c'.AtRest) (failed : c'.session = .failed)
    (settings : c'.setup = (ofSetup setup).setup) : Reachable setup c'

theorem Reachable.settings {setup : List (Codec × Option DecodeParms)} {c : Chain}
    (h : Reachable setup c) : c.setup = (ofSetup setup).setup := by
  induction h with
  | new => rfl
  | call _ ctx a ih => exact (setup_perform _ ctx a).trans ih
  | amid _ _ _ _ _ _ settings _ => exact settings

end Chain
end PdfStream
