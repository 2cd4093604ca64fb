import PdfStream.Proofs.Chain.History
import PdfStream.Proofs.Engine.Invariant

/-!
What the lifecycle does for the codecs of a chain. Every call on a chain works on its stages by
calls on their engines, so what holds of each engine after any calls holds of each stage. That does
not take a chain whose stages are in step: stages may be added at any time.
-/
namespace PdfStream.Chain

/-- All engines of the stages keep `P` while they have a session. -/
def Hold (P : Direction → Codec → Prop) (stages : List Stage) : Prop :=
  ∀ s ∈ stages, s.engine.Holds P

/-- The chains that any calls can make of a new one, with stages added at any time. -/
inductive Occurs : Chain → Prop
  | new (setup : List (Codec × Option DecodeParms)) : Occurs (ofSetup setup)
  | push {c : Chain} (before : Occurs c) (codec : Codec) (parms : Option DecodeParms) :
    Occurs (c.push codec parms)
  | call {c : Chain} (before : Occurs c) (ctx : CryptoContext) (a : ChainAction) :
    Occurs (a.perform ctx c).2.1
  /-- Where a failure comes amid the work of a codec, its stage may stop anywhere. All sessions are
  over then. -/
  | amid {c c' : Chain} (before : Occurs c) (ctx : CryptoContext) (a : ChainAction) {error : Error}
    {sink? : Option Sink} (broken : (a.perform ctx c).2.2 = .broken error sink?)
    (failed : c'.session = .failed) (rest : ∀ s ∈ c'.stages, s.engine.session = .failed ∨
      s.engine.session = .idle) : Occurs c'

section
variable {P : Direction → Codec → Prop} {stages : List Stage}

theorem hold_inOrder (direction : Direction) :
    Hold P (inOrder direction stages) ↔ Hold P stages := by
  cases direction with
  | encode => exact Iff.rfl
  | decode => simp [Hold, inOrder]

theorem hold_abandon (hP : Codec.IsInvariant P) (h : Hold P stages) : Hold P (abandon stages) := by
  intro s hs
  obtain ⟨t, ht, rfl⟩ := List.mem_map.1 hs
  exact (h t ht).perform hP {} .fail

theorem hold_startStages (hP : Codec.IsInvariant P) (h : Hold P stages) (direction : Direction)
    (ctx : CryptoContext) : Hold P (startStages direction stages ctx).2.1 := by
  induction stages generalizing ctx with
  | nil => exact h
  | cons s stages ih =>
    obtain ⟨hs, hrest⟩ := List.forall_mem_cons.1 h
    have hstart := hs.perform hP ctx (.start direction .buffer (s.parmsFor direction))
    rw [startStages_cons]
    revert hstart
    simp only [EngineAction.perform]
    rcases s.engine.start direction .buffer (s.parmsFor direction) ctx with ⟨ctx', engine, reply⟩
    intro hstart
    dsimp only
    split
    · exact List.forall_mem_cons.2 ⟨hstart, hrest⟩
    · exact List.forall_mem_cons.2 ⟨hstart, ih hrest ctx'⟩

theorem hold_relay {work : Engine → Bytes → Engine × Except Error Bytes}
    (hwork : ∀ e data, e.Holds P → (work e data).1.Holds P) (h : Hold P stages) (data : Bytes) :
    Hold P (relay work data stages).1 := by
  induction stages generalizing data with
  | nil => exact h
  | cons s stages ih =>
    obtain ⟨hs, hrest⟩ := List.forall_mem_cons.1 h
    have hown := hwork s.engine data hs
    rw [relay]
    revert hown
    rcases work s.engine data with ⟨engine, e | out⟩
    · intro hown
      exact List.forall_mem_cons.2 ⟨hown, hrest⟩
    · intro hown
      exact List.forall_mem_cons.2 ⟨hown, ih hrest out⟩

end

end PdfStream.Chain

namespace PdfStream.Engine
variable {P : Direction → Codec → Prop} {e : Engine}

theorem Holds.drain (h : e.Holds P) : e.drain.1.Holds P := by
  unfold Engine.drain
  split
  next => exact h
  next sink hsink =>
    refine ⟨?_, h.codec⟩
    have hactive := h.bound.1 (by rw [hsink]; rfl)
    exact ⟨fun _ => hactive, fun _ => rfl⟩

theorem Holds.pumpEngine (hP : Codec.IsInvariant P) (h : e.Holds P) (direction : Direction)
    (data : Bytes) : (Chain.pumpEngine direction e data).1.Holds P := by
  have hblock := h.perform hP {} (.block direction data)
  unfold Chain.pumpEngine
  dsimp only
  split
  · exact hblock
  · exact hblock.drain

theorem Holds.finishEngine (hP : Codec.IsInvariant P) (h : e.Holds P) (direction : Direction)
    (data : Bytes) : (Chain.finishEngine direction e data).1.Holds P := by
  have hblock := h.perform hP {} (.block direction data)
  unfold Chain.finishEngine
  dsimp only
  split
  · exact hblock
  · exact hblock.perform hP {} (.finish direction)

end PdfStream.Engine

namespace PdfStream.Chain
variable {P : Direction → Codec → Prop} {c : Chain}

theorem hold_start (hP : Codec.IsInvariant P) (h : Hold P c.stages) (direction : Direction)
    (sink : Sink) (ctx : CryptoContext) : Hold P (c.start direction sink ctx).2.1.stages := by
  have hstages := (hold_inOrder direction).2
    (hold_startStages hP ((hold_inOrder direction).2 h) direction ctx)
  unfold start
  split
  · exact h
  · dsimp only
    split
    · exact hold_abandon hP hstages
    · exact hstages

theorem hold_block (hP : Codec.IsInvariant P) (h : Hold P c.stages) (direction : Direction)
    (data : Bytes) : Hold P (c.block direction data).1.stages := by
  have hstages := (hold_inOrder direction).2 (hold_relay
    (fun e data he => he.pumpEngine hP direction data) ((hold_inOrder direction).2 h) data)
  unfold block
  split
  · dsimp only
    split
    · exact hold_abandon hP hstages
    · exact hold_abandon hP hstages
    · split
      · exact hold_abandon hP hstages
      · exact hstages
  · exact h

theorem hold_finish (hP : Codec.IsInvariant P) (h : Hold P c.stages) (direction : Direction) :
    Hold P (c.finish direction).1.stages := by
  have hstages := (hold_inOrder direction).2 (hold_relay
    (fun e data he => he.finishEngine hP direction data) ((hold_inOrder direction).2 h) [])
  unfold finish
  split
  · dsimp only
    split
    · exact hold_abandon hP hstages
    · exact hold_abandon hP hstages
    · split
      · exact hold_abandon hP hstages
      · split
        · exact hold_abandon hP hstages
        · exact hstages
  · exact h

theorem hold_fail (hP : Codec.IsInvariant P) (h : Hold P c.stages) : Hold P c.fail.1.stages := by
  unfold fail
  split
  · split
    · exact hold_abandon hP h
    · exact hold_abandon hP h
  · exact h

theorem hold_oneShot (hP : Codec.IsInvariant P) (h : Hold P c.stages) (direction : Direction)
    (sink : Sink) (data : Bytes) (ctx : CryptoContext) :
    Hold P (c.oneShot direction sink data ctx).2.1.stages := by
  have hstart := hold_start hP h direction sink ctx
  unfold oneShot
  revert hstart
  rcases c.start direction sink ctx with ⟨ctx', c₁, reply⟩
  intro hstart
  cases reply with
  | done =>
    have hblock := hold_block hP hstart direction data
    dsimp only at hblock ⊢
    revert hblock
    rcases c₁.block direction data with ⟨c₂, reply⟩
    intro hblock
    cases reply with
    | done => exact hold_finish hP hblock direction
    | returned | refused | broken => exact hblock
  | returned | refused | broken => exact hstart

theorem hold_perform (hP : Codec.IsInvariant P) (h : Hold P c.stages) (ctx : CryptoContext)
    (a : ChainAction) : Hold P (a.perform ctx c).2.1.stages := by
  cases a with
  | start direction sink => exact hold_start hP h direction sink ctx
  | block direction data => exact hold_block hP h direction data
  | finish direction => exact hold_finish hP h direction
  | oneShot direction sink data => exact hold_oneShot hP h direction sink data ctx
  | fail => exact hold_fail hP h

/-- By induction on the history. -/
theorem Occurs.hold (hP : Codec.IsInvariant P) (h : Occurs c) : Hold P c.stages := by
  induction h with
  | new setup =>
    intro s hs
    obtain ⟨stage, -, rfl⟩ := List.mem_map.1 hs
    exact Engine.holds_idle stage.1
  | push _ codec _ ih =>
    intro s hs
    rcases List.mem_append.1 hs with hold | hnew
    · exact ih s hold
    · rw [List.mem_singleton.1 hnew]
      exact Engine.holds_idle codec
  | call _ ctx a ih => exact hold_perform hP ih ctx a
  | amid _ _ _ _ _ rest _ =>
    intro s hs
    obtain ⟨⟨codec, session⟩, parms⟩ := s
    rcases rest _ hs with hsession | hsession <;> cases hsession
    · exact Engine.holds_failed codec
    · exact Engine.holds_idle codec

end PdfStream.Chain
