import Mathlib.Data.List.Basic
import Mathlib.Data.Option.Basic
import PdfStream.Codec

/-!
Sessions over any number of blocks. A session computes a function of its data if its output, or the
lack of one, depends on the concatenation of the blocks alone. The main tool states what every state
of a coder still makes of the data to come.
-/
namespace PdfStream
namespace Step
variable {σ τ : Type}

/-- Everything written, if there was no fault. -/
def output? (r : Step σ) : Option Bytes :=
  match r.fault with
  | none => some r.bytes
  | some _ => none

theorem output?_of_no_fault {r : Step σ} (h : r.fault = none) : r.output? = some r.bytes := by
  simp only [output?, h]

theorem output?_of_fault {r : Step σ} {e : Error} (h : r.fault = some e) : r.output? = none := by
  simp only [output?, h]

@[simp] theorem output?_quiet (s : σ) : (quiet s).output? = some [] := rfl
@[simp] theorem output?_write (s : σ) (b : Bytes) : (write s b).output? = some b := by
  rw [output?_of_no_fault (fault_write s b), bytes_write]
@[simp] theorem output?_stop (s : σ) (e : Error) : (stop s e).output? = none := rfl
@[simp] theorem output?_map (f : σ → τ) (r : Step σ) : (r.map f).output? = r.output? := rfl

theorem output?_andThen (r : Step σ) (f : σ → Step σ) :
    (r.andThen f).output? = r.output?.bind fun out => (f r.state).output?.map (out ++ ·) := by
  cases hr : r.fault with
  | some e => rw [andThen_of_fault hr, output?_of_fault hr, Option.bind_none]
  | none =>
    have hfault : (r.andThen f).fault = (f r.state).fault := by rw [andThen_of_no_fault hr]
    rw [output?_of_no_fault hr, Option.bind_some]
    cases hf : (f r.state).fault with
    | some e => rw [output?_of_fault hf, output?_of_fault (hfault.trans hf), Option.map_none]
    | none =>
      rw [output?_of_no_fault hf, output?_of_no_fault (hfault.trans hf), bytes_andThen hr,
        Option.map_some]

theorem state_andThen {r : Step σ} (h : r.fault = none) (f : σ → Step σ) :
    (r.andThen f).state = (f r.state).state := by rw [andThen_of_no_fault h]

theorem fault_andThen {r : Step σ} (h : r.fault = none) (f : σ → Step σ) :
    (r.andThen f).fault = (f r.state).fault := by rw [andThen_of_no_fault h]

/-- What comes after two steps, of which the first has written before the second. -/
theorem bind_output?_andThen (r : Step σ) (f : σ → Step σ) (g : σ → Option Bytes) :
    ((r.andThen f).output?.bind fun out => (g (r.andThen f).state).map (out ++ ·)) =
      r.output?.bind fun out => ((f r.state).output?.bind fun out' =>
        (g (f r.state).state).map (out' ++ ·)).map (out ++ ·) := by
  rw [output?_andThen]
  cases hr : r.fault with
  | some e => rw [output?_of_fault hr, Option.bind_none, Option.bind_none, Option.bind_none]
  | none =>
    rw [output?_of_no_fault hr, Option.bind_some, Option.bind_some, state_andThen hr]
    cases (f r.state).output? with
    | none => rfl
    | some out => simp [Function.comp_def]

theorem fault_andThen_stop (r : Step σ) (e : Error) :
    ∃ e', (r.andThen (.stop · e)).fault = some e' := by
  cases hr : r.fault with
  | none => exact ⟨e, fault_andThen hr _⟩
  | some e' =>
    rw [andThen_of_fault hr]
    exact ⟨e', hr⟩

/-- A property that both steps leave their state with. -/
theorem andThen_keeps {P : σ → Prop} {r : Step σ} {f : σ → Step σ} (hr : P r.state)
    (hf : ∀ s, P s → P (f s).state) : P (r.andThen f).state := by
  cases h : r.fault with
  | none =>
    rw [state_andThen h]
    exact hf r.state hr
  | some e =>
    rw [andThen_of_fault h]
    exact hr

theorem run_keeps {α : Type} {P : σ → Prop} {f : σ → α → Step σ}
    (hf : ∀ s a, P s → P (f s a).state) {s : σ} (hs : P s) (inputs : List α) :
    P (run f s inputs).state := by
  induction inputs generalizing s with
  | nil => exact hs
  | cons a inputs ih =>
    rw [run_cons]
    exact andThen_keeps (hf s a hs) fun t ht => ih ht

theorem map_andThen (r : Step σ) (f : σ → Step σ) (g : σ → τ) (f' : τ → Step τ)
    (h : ∀ s, (f s).map g = f' (g s)) : (r.andThen f).map g = (r.map g).andThen f' := by
  obtain ⟨state, spans, _ | e⟩ := r
  · simp only [andThen, map, ← h]
  · rfl

theorem map_eq_andThen {r : Step σ} (h : r.fault = none) (f : σ → σ) :
    r.map f = r.andThen fun s => .quiet (f s) := by
  rw [andThen_of_no_fault h]
  simp [map, quiet, h]

theorem map_run {α : Type} (f : σ → α → Step σ) (g : σ → τ) (f' : τ → α → Step τ)
    (h : ∀ s a, (f s a).map g = f' (g s) a) (s : σ) (inputs : List α) :
    (run f s inputs).map g = run f' (g s) inputs := by
  induction inputs generalizing s with
  | nil => rfl
  | cons a inputs ih =>
    rw [run_cons, run_cons, map_andThen (f s a) (run f · inputs) g (run f' · inputs) ih, h]

/-- The step leaves `s`, has written `out` and had no fault. -/
def Yields (r : Step σ) (s : σ) (out : Bytes) : Prop :=
  r.fault = none ∧ r.state = s ∧ r.bytes = out

theorem yields_quiet (s : σ) : (quiet s).Yields s [] := ⟨rfl, rfl, rfl⟩

theorem yields_write (s : σ) (b : Bytes) : (write s b).Yields s b := ⟨rfl, rfl, bytes_write s b⟩

theorem Yields.andThen {r : Step σ} {f : σ → Step σ} {s t : σ} {out out' : Bytes}
    (h : r.Yields s out) (h' : (f s).Yields t out') : (r.andThen f).Yields t (out ++ out') := by
  obtain ⟨hf, rfl, rfl⟩ := h
  obtain ⟨hf', rfl, rfl⟩ := h'
  exact ⟨(fault_andThen hf f).trans hf', state_andThen hf f, bytes_andThen hf f⟩

theorem Yields.output? {r : Step σ} {s : σ} {out : Bytes} (h : r.Yields s out) :
    r.output? = some out := by
  obtain ⟨hf, -, rfl⟩ := h
  exact output?_of_no_fault hf

theorem Yields.map {r : Step σ} {s : σ} {out : Bytes} (h : r.Yields s out) (g : σ → τ) :
    (r.map g).Yields (g s) out := ⟨h.1, congrArg g h.2.1, h.2.2⟩

theorem yields_of_no_fault {r : Step σ} (h : r.fault = none) : r.Yields r.state r.bytes :=
  ⟨h, rfl, rfl⟩

theorem andThen_quiet (r : Step σ) : r.andThen quiet = r := by
  cases hr : r.fault with
  | none =>
    rw [andThen_of_no_fault hr]
    obtain ⟨state, spans, fault⟩ := r
    cases hr
    simp [quiet]
  | some e => exact andThen_of_fault hr quiet

theorem fault_run {α : Type} {f : σ → α → Step σ} (h : ∀ s a, (f s a).fault = none) (s : σ)
    (inputs : List α) : (run f s inputs).fault = none := by
  induction inputs generalizing s with
  | nil => rfl
  | cons a inputs ih =>
    rw [run_cons, fault_andThen (h s a)]
    exact ih _

theorem run_singleton {α : Type} (f : σ → α → Step σ) (s : σ) (a : α) : run f s [a] = f s a := by
  rw [run_cons]
  exact andThen_quiet (f s a)

/-- The first of some inputs before the others, up to the end. -/
theorem output?_run_cons {α : Type} (f : σ → α → Step σ) (last : σ → Step σ) (s : σ) (a : α)
    (inputs : List α) : ((run f s (a :: inputs)).andThen last).output? =
      (f s a).output?.bind fun out =>
        ((run f (f s a).state inputs).andThen last).output?.map (out ++ ·) := by
  rw [run_cons, andThen_assoc, output?_andThen]

theorem Yields.run_append {α : Type} {f : σ → α → Step σ} {s t u : σ} {xs ys : List α}
    {out out' : Bytes} (h : (run f s xs).Yields t out) (h' : (run f t ys).Yields u out') :
    (run f s (xs ++ ys)).Yields u (out ++ out') := by
  rw [Step.run_append]
  exact h.andThen h'

theorem Yields.run_singleton {α : Type} {f : σ → α → Step σ} {s t : σ} {a : α} {out : Bytes}
    (h : (f s a).Yields t out) : (run f s [a]).Yields t out := by
  rwa [Step.run_singleton]

/-- Without a fault the same state and bytes, and faults in the same cases. -/
def Agrees (r s : Step σ) : Prop := r.output? = s.output? ∧ (r.fault = none → r.state = s.state)

theorem Agrees.refl (r : Step σ) : r.Agrees r := ⟨rfl, fun _ => rfl⟩

theorem agrees_joined (r : Step σ) : r.joined.Agrees r := by
  unfold joined Agrees
  split
  next e h => exact ⟨(output?_stop r.state e).trans (output?_of_fault h).symm, nofun⟩
  next h => exact ⟨(output?_write r.state r.bytes).trans (output?_of_no_fault h).symm, fun _ => rfl⟩

theorem agrees_inSpans {size : Nat} (h : size ≠ 0) (r : Step σ) : (r.inSpans size).Agrees r := by
  refine ⟨?_, fun _ => rfl⟩
  cases hr : r.fault with
  | none =>
    have hspans : (r.inSpans size).fault = none := hr
    rw [output?_of_no_fault hr, output?_of_no_fault hspans, bytes_inSpans h]
  | some e =>
    have hspans : (r.inSpans size).fault = some e := hr
    rw [output?_of_fault hr, output?_of_fault hspans]

/-- Feeding block after block is feeding all of it. -/
theorem run_flatten {α : Type} (f : σ → α → Step σ) (s : σ) (blocks : List (List α)) :
    run (run f) s blocks = run f s blocks.flatten := by
  induction blocks generalizing s with
  | nil => rfl
  | cons block blocks ih =>
    rw [run_cons, List.flatten_cons, run_append]
    congr 1
    funext t
    exact ih t

/-- The step has no other faults than those with `P`. -/
def FaultsOnly (P : Error → Prop) (r : Step σ) : Prop := ∀ e, r.fault = some e → P e

section
variable {P : Error → Prop} {r : Step σ}

theorem FaultsOnly.of_no_fault (h : r.fault = none) : r.FaultsOnly P := by
  intro e he
  rw [h] at he
  cases he

theorem faultsOnly_stop {e : Error} (h : P e) (s : σ) : (stop s e).FaultsOnly P := by
  rintro _ ⟨⟩
  exact h

theorem FaultsOnly.mono {Q : Error → Prop} (h : r.FaultsOnly P) (hpq : ∀ e, P e → Q e) :
    r.FaultsOnly Q := fun e he => hpq e (h e he)

theorem FaultsOnly.map (h : r.FaultsOnly P) (f : σ → τ) : (r.map f).FaultsOnly P := h

theorem FaultsOnly.joined (h : r.FaultsOnly P) : r.joined.FaultsOnly P := by
  unfold Step.joined
  split
  next e he => exact faultsOnly_stop (h e he) _
  next => exact .of_no_fault rfl

theorem FaultsOnly.andThen {f : σ → Step σ} (hr : r.FaultsOnly P)
    (hf : ∀ s, (f s).FaultsOnly P) : (r.andThen f).FaultsOnly P := by
  intro e he
  cases hfault : r.fault with
  | none =>
    rw [fault_andThen hfault] at he
    exact hf _ e he
  | some e' =>
    rw [andThen_of_fault hfault] at he
    exact hr e he

theorem FaultsOnly.run {α : Type} {f : σ → α → Step σ} (hf : ∀ s a, (f s a).FaultsOnly P) (s : σ)
    (inputs : List α) : (run f s inputs).FaultsOnly P := by
  induction inputs generalizing s with
  | nil => exact .of_no_fault rfl
  | cons a inputs ih =>
    rw [run_cons]
    exact (hf s a).andThen ih

end

end Step

/-- A stream coder while a session is open. -/
structure Coder (σ : Type) where
  block : Bytes → σ → Step σ
  finish : σ → Step σ

namespace Coder
variable {σ τ : Type} {k : Coder σ}

/-- The rest of a session: blocks, then the end. -/
def session (k : Coder σ) (blocks : List Bytes) (s : σ) : Step σ :=
  (Step.run (fun s data => k.block data s) s blocks).andThen k.finish

theorem session_nil (s : σ) : k.session [] s = k.finish s := by simp [session]

theorem session_cons (data : Bytes) (blocks : List Bytes) (s : σ) :
    k.session (data :: blocks) s = (k.block data s).andThen (k.session blocks) := by
  rw [session, Step.run_cons, Step.andThen_assoc]
  rfl

/-- The rest of the session makes `out` of these data to come, whatever blocks bring them. -/
def ComputesOf (k : Coder σ) (s : σ) (data : Bytes) (out : Option Bytes) : Prop :=
  ∀ blocks : List Bytes, blocks.flatten = data → (k.session blocks s).output? = out

/-- The rest of the session makes `f` of the data to come, whatever blocks bring them. -/
def Computes (k : Coder σ) (s : σ) (f : Bytes → Option Bytes) : Prop :=
  ∀ blocks : List Bytes, (k.session blocks s).output? = f blocks.flatten

theorem Computes.of {s : σ} {f : Bytes → Option Bytes} (h : k.Computes s f) (data : Bytes) :
    k.ComputesOf s data (f data) := by
  rintro blocks rfl
  exact h blocks

/-- If blocks and the end have only faults with `P` as long as the invariant holds, so has the whole
rest of the session. -/
theorem fault_session {P : Error → Prop} (Inv : σ → Prop)
    (hblock : ∀ s data, Inv s → (∀ e, (k.block data s).fault = some e → P e) ∧
      ((k.block data s).fault = none → Inv (k.block data s).state))
    (hfinish : ∀ s, Inv s → ∀ e, (k.finish s).fault = some e → P e)
    {s : σ} (hs : Inv s) (blocks : List Bytes) {e : Error}
    (he : (k.session blocks s).fault = some e) : P e := by
  induction blocks generalizing s with
  | nil =>
    rw [session_nil] at he
    exact hfinish s hs e he
  | cons data blocks ih =>
    obtain ⟨hfaults, hkeeps⟩ := hblock s data hs
    rw [session_cons] at he
    cases hf : (k.block data s).fault with
    | none =>
      rw [Step.fault_andThen hf] at he
      exact ih (hkeeps hf) he
    | some e' =>
      rw [Step.andThen_of_fault hf] at he
      exact hfaults e he

/-- Each state that keeps the invariant has a meaning: what the session still makes of the data to
come, of which the invariant may also speak. A block takes its own share of the meaning, and the end
takes what is left. -/
theorem computesOf_of_meaning (Inv : σ → Bytes → Prop) (meaning : σ → Bytes → Option Bytes)
    (hinv : ∀ s data rest, Inv s (data ++ rest) → (k.block data s).fault = none →
      Inv (k.block data s).state rest)
    (hblock : ∀ s data rest, Inv s (data ++ rest) → meaning s (data ++ rest) =
      (k.block data s).output?.bind fun out =>
        (meaning (k.block data s).state rest).map (out ++ ·))
    (hfinish : ∀ s, Inv s [] → (k.finish s).output? = meaning s [])
    {s : σ} {data : Bytes} (hs : Inv s data) : k.ComputesOf s data (meaning s data) := by
  rintro blocks rfl
  induction blocks generalizing s with
  | nil => rw [session_nil, List.flatten_nil, hfinish s hs]
  | cons data blocks ih =>
    rw [List.flatten_cons] at hs
    rw [session_cons, Step.output?_andThen, List.flatten_cons, hblock s data _ hs]
    cases hf : (k.block data s).fault with
    | none => rw [Step.output?_of_no_fault hf, Option.bind_some, Option.bind_some,
        ih (hinv s data _ hs hf)]
    | some e => rw [Step.output?_of_fault hf, Option.bind_none, Option.bind_none]

theorem computes_of_meaning (Inv : σ → Prop) (meaning : σ → Bytes → Option Bytes)
    (hinv : ∀ s data, Inv s → (k.block data s).fault = none → Inv (k.block data s).state)
    (hblock : ∀ s data rest, Inv s → meaning s (data ++ rest) =
      (k.block data s).output?.bind fun out =>
        (meaning (k.block data s).state rest).map (out ++ ·))
    (hfinish : ∀ s, Inv s → (k.finish s).output? = meaning s [])
    {s : σ} (hs : Inv s) : k.Computes s (meaning s) := fun blocks =>
  computesOf_of_meaning (fun s _ => Inv s) meaning (fun s data _ => hinv s data) hblock hfinish hs
    blocks rfl

/-- How a block shares in what all states compute. -/
theorem Computes.append {f : σ → Bytes → Option Bytes} (h : ∀ s, k.Computes s (f s)) (s : σ)
    (data rest : Bytes) : f s (data ++ rest) = (k.block data s).output?.bind fun out =>
      (f (k.block data s).state rest).map (out ++ ·) := by
  have hrest := h (k.block data s).state [rest]
  have hboth := h s [data, rest]
  rw [session_cons, Step.output?_andThen, hrest, List.flatten_singleton] at hboth
  rw [hboth, List.flatten_cons, List.flatten_singleton]

theorem Computes.nil {s : σ} {f : Bytes → Option Bytes} (h : k.Computes s f) :
    (k.finish s).output? = f [] := by
  rw [← session_nil, h []]
  rfl

/-- A coder that works byte by byte on the part `π` of its state computes what that work makes of
all bytes in one go. -/
theorem computes_run (k : Coder σ) (f : τ → UInt8 → Step τ) (last : τ → Step τ) (π : σ → τ)
    (hblock : ∀ s data, ((k.block data s).map π).Agrees (Step.run f (π s) data))
    (hfinish : ∀ s, (k.finish s).output? = (last (π s)).output?) (s : σ) :
    k.Computes s fun data => ((Step.run f (π s) data).andThen last).output? := by
  refine computes_of_meaning (fun _ => True)
    (fun s data => ((Step.run f (π s) data).andThen last).output?) (fun _ _ _ _ => trivial) ?_ ?_
    trivial
  · intro s data rest _
    obtain ⟨hout, hstate⟩ := hblock s data
    rw [Step.output?_map] at hout
    rw [Step.run_append, Step.andThen_assoc, Step.output?_andThen, ← hout]
    cases hf : (k.block data s).fault with
    | none =>
      have hsame : π (k.block data s).state = (Step.run f (π s) data).state := hstate hf
      rw [Step.output?_of_no_fault hf, hsame]
    | some e => rw [Step.output?_of_fault hf, Option.bind_none, Option.bind_none]
  · intro s _
    rw [Step.run_nil, Step.quiet_andThen, hfinish]

/-- The same coder inside another state. -/
theorem session_embed (k' : Coder τ) (ι : σ → τ)
    (hblock : ∀ s data, k'.block data (ι s) = (k.block data s).map ι)
    (hfinish : ∀ s, (k'.finish (ι s)).output? = (k.finish s).output?) (blocks : List Bytes) (s : σ) :
    (k'.session blocks (ι s)).output? = (k.session blocks s).output? := by
  have hrun := Step.map_run (fun s data => k.block data s) ι (fun s data => k'.block data s)
    (fun s data => (hblock s data).symm) s blocks
  rw [session, session, Step.output?_andThen, Step.output?_andThen, ← hrun, Step.output?_map]
  congr 1
  funext out
  rw [Step.state_map, hfinish]

theorem Computes.embed {s : σ} {f : Bytes → Option Bytes} (h : k.Computes s f) (k' : Coder τ)
    (ι : σ → τ) (hblock : ∀ s data, k'.block data (ι s) = (k.block data s).map ι)
    (hfinish : ∀ s, (k'.finish (ι s)).output? = (k.finish s).output?) :
    k'.Computes (ι s) f := fun blocks =>
  (session_embed k' ι hblock hfinish blocks s).trans (h blocks)

/-- What the rest of a session makes of its data in one block. -/
def rest (k : Coder σ) (s : σ) (data : Bytes) : Option Bytes := (k.session [data] s).output?

/-- The rest of the session goes by these data alone, not by their blocks. -/
def IsSteady (k : Coder σ) (s : σ) (data : Bytes) : Prop := k.ComputesOf s data (k.rest s data)

theorem ComputesOf.isSteady {s : σ} {data : Bytes} {out : Option Bytes}
    (h : k.ComputesOf s data out) : k.IsSteady s data := by
  intro blocks hblocks
  rw [rest, h blocks hblocks, h [data] List.flatten_singleton]

theorem rest_eq (k : Coder σ) (s : σ) (data : Bytes) : k.rest s data =
    (k.block data s).output?.bind fun out =>
      (k.finish (k.block data s).state).output?.map (out ++ ·) := by
  rw [rest, session_cons, Step.output?_andThen, session_nil]

section
variable {s : σ} {data more : Bytes} (h : k.IsSteady s (data ++ more))
include h

theorem IsSteady.rest_append : k.rest s (data ++ more) = (k.block data s).output?.bind fun out =>
    (k.rest (k.block data s).state more).map (out ++ ·) := by
  have hboth := h [data, more] (by simp)
  rw [session_cons, Step.output?_andThen] at hboth
  exact hboth.symm

theorem IsSteady.block (hfault : (k.block data s).fault = none) :
    k.IsSteady (k.block data s).state more := by
  rintro blocks rfl
  have hall := h (data :: blocks) List.flatten_cons
  rw [session_cons, Step.output?_andThen, h.rest_append, Step.output?_of_no_fault hfault,
    Option.bind_some, Option.bind_some] at hall
  exact Option.map_injective (List.append_right_injective _) hall

end

end Coder

namespace Codec

def coder (direction : Direction) : Coder Codec := ⟨block direction, finish direction⟩

/-- A whole session on a list of blocks, with nothing in the way of its output. -/
def session (direction : Direction) (ctx : CryptoContext) (parms : Option DecodeParms)
    (blocks : List Bytes) (c : Codec) : Step Codec :=
  (c.start direction ctx parms).2.andThen ((coder direction).session blocks)

/-- A session up to its last block. -/
def fed (direction : Direction) (ctx : CryptoContext) (parms : Option DecodeParms)
    (blocks : List Bytes) (c : Codec) : Step Codec :=
  (c.start direction ctx parms).2.andThen
    (Step.run (fun c data => c.block direction data) · blocks)

theorem session_eq_fed (c : Codec) (direction : Direction) (ctx : CryptoContext)
    (parms : Option DecodeParms) (blocks : List Bytes) :
    c.session direction ctx parms blocks =
      (c.fed direction ctx parms blocks).andThen (·.finish direction) := by
  rw [fed, Step.andThen_assoc]
  rfl

theorem oneShot_eq_session (direction : Direction) (ctx : CryptoContext)
    (parms : Option DecodeParms) (data : Bytes) (c : Codec) :
    (c.oneShot direction ctx parms data).toOption =
      (c.session direction ctx parms [data]).output? := by
  have hwhole : c.session direction ctx parms [data] =
      ((c.start direction ctx parms).2.andThen (·.block direction data)).andThen
        (·.finish direction) := by
    rw [session, Step.andThen_assoc]
    congr 1
    funext s
    rw [Coder.session_cons]
    congr 1
    funext t
    exact Coder.session_nil t
  rw [hwhole, oneShot, Step.output?]
  dsimp only
  split
  next e h => rw [h]; rfl
  next h => rw [h]; rfl

/-- Sessions make `out` of these data, whatever the blocks. -/
def MakesOf (direction : Direction) (ctx : CryptoContext) (parms : Option DecodeParms) (c : Codec)
    (data : Bytes) (out : Option Bytes) : Prop :=
  ∀ blocks : List Bytes, blocks.flatten = data →
    (c.session direction ctx parms blocks).output? = out

/-- A session makes `f` of its data, whatever the blocks. -/
def Makes (direction : Direction) (ctx : CryptoContext) (parms : Option DecodeParms) (c : Codec)
    (f : Bytes → Option Bytes) : Prop :=
  ∀ blocks : List Bytes, (c.session direction ctx parms blocks).output? = f blocks.flatten

section
variable {direction : Direction} {ctx : CryptoContext} {parms : Option DecodeParms} {c : Codec}

theorem Makes.of {f : Bytes → Option Bytes} (h : c.Makes direction ctx parms f) (data : Bytes) :
    c.MakesOf direction ctx parms data (f data) := by
  rintro blocks rfl
  exact h blocks

theorem makes_of_computes {f : Bytes → Option Bytes}
    (h : (c.start direction ctx parms).2.fault = none →
      (coder direction).Computes (c.start direction ctx parms).2.state f) :
    c.Makes direction ctx parms fun data =>
      (c.start direction ctx parms).2.output?.bind fun out => (f data).map (out ++ ·) := by
  intro blocks
  rw [session, Step.output?_andThen]
  cases hf : (c.start direction ctx parms).2.fault with
  | none => simp only [h hf blocks]
  | some e => simp only [Step.output?_of_fault hf, Option.bind_none]

/-- A session that begins without writing. -/
theorem makesOf_of_quiet {s : Codec} {data : Bytes} {out : Option Bytes}
    (hstart : (c.start direction ctx parms).2 = .quiet s)
    (h : (coder direction).ComputesOf s data out) : c.MakesOf direction ctx parms data out := by
  intro blocks hblocks
  rw [session, hstart, Step.quiet_andThen]
  exact h blocks hblocks

theorem makes_of_quiet {s : Codec} {f : Bytes → Option Bytes}
    (hstart : (c.start direction ctx parms).2 = .quiet s) (h : (coder direction).Computes s f) :
    c.Makes direction ctx parms f := fun blocks =>
  makesOf_of_quiet hstart (h.of _) blocks rfl

/-- What sessions make of their data shows in the one-shot session. -/
theorem MakesOf.eq_oneShot {data : Bytes} {out : Option Bytes}
    (h : c.MakesOf direction ctx parms data out) {blocks : List Bytes}
    (hblocks : blocks.flatten = data) : (c.session direction ctx parms blocks).output? =
      (c.oneShot direction ctx parms data).toOption := by
  rw [oneShot_eq_session, h blocks hblocks, h [data] List.flatten_singleton]

end

end Codec
end PdfStream
