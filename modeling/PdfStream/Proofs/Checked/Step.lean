import PdfStream.Proofs.Coder

/-!
Steps with every index, slice, difference and narrowing checked. An operation that is out of range
stops the program; its result is `none` then. A step is in range if the checked one comes to the
same. Most codecs read their input byte by byte, which leaves no cut of the input to check.
-/
namespace PdfStream

namespace Checked
variable {α : Type}

/-- A difference that must not be negative. -/
def sub (m n : Nat) : Option Nat := if n ≤ m then some (m - n) else none

/-- A number that must fit a byte. -/
def byte (n : Nat) : Option UInt8 := if n < 256 then some (UInt8.ofNat n) else none

/-- The first `count` items, which must be there. -/
def front (count : Nat) (items : List α) : Option (List α) :=
  if count ≤ items.length then some (items.take count) else none

/-- The items after the first `count`, which must be there. -/
def back (count : Nat) (items : List α) : Option (List α) :=
  if count ≤ items.length then some (items.drop count) else none

/-- One more item, for which the `size` slots must not be full. -/
def push (size : Nat) (items : List α) (item : α) : Option (List α) :=
  if items.length < size then some (items ++ [item]) else none

/-- Items that must be `count`. -/
def exactly (count : Nat) (items : List α) : Option (List α) :=
  if items.length = count then some items else none

/-- Puts an item at an index, which must be in use. -/
def set (items : Array α) (i : Nat) (item : α) : Option (Array α) :=
  if h : i < items.size then some (items.set i item h) else none

theorem sub_eq {m n : Nat} (h : n ≤ m) : sub m n = some (m - n) := if_pos h

theorem byte_eq {n : Nat} (h : n < 256) : byte n = some (UInt8.ofNat n) := if_pos h

theorem front_eq {count : Nat} {items : List α} (h : count ≤ items.length) :
    front count items = some (items.take count) := if_pos h

theorem back_eq {count : Nat} {items : List α} (h : count ≤ items.length) :
    back count items = some (items.drop count) := if_pos h

/-- No more is taken than there is. -/
theorem front_min (count : Nat) (items : List α) :
    front (min count items.length) items = some (items.take count) := by
  rw [front_eq (Nat.min_le_right count items.length), ← List.take_eq_take_min]

theorem back_min (count : Nat) (items : List α) :
    back (min count items.length) items = some (items.drop count) := by
  rw [back_eq (Nat.min_le_right count items.length), ← List.drop_eq_drop_min]

theorem push_eq {size : Nat} {items : List α} (h : items.length < size) (item : α) :
    push size items item = some (items ++ [item]) := if_pos h

theorem exactly_eq {count : Nat} {items : List α} (h : items.length = count) :
    exactly count items = some items := if_pos h

theorem set_eq {items : Array α} {i : Nat} (h : i < items.size) (item : α) :
    set items i item = some (items.set i item h) := dif_pos h

end Checked

namespace Step
variable {σ τ α : Type}

/-- Runs the checked `f` on the state left, unless there was a fault. -/
def andThen? (r : Step σ) (f : σ → Option (Step σ)) : Option (Step σ) :=
  match r with
  | ⟨state, spans, some error⟩ => some ⟨state, spans, some error⟩
  | ⟨state, spans, none⟩ =>
    (f state).map fun next => ⟨next.state, spans ++ next.spans, next.fault⟩

/-- Feeds the inputs one at a time. -/
def run? (f : σ → α → Option (Step σ)) (state : σ) : List α → Option (Step σ)
  | [] => some (quiet state)
  | a :: inputs => f state a >>= fun r => r.andThen? fun s => run? f s inputs

/-- A step whose spans are cut from a buffer of `size` bytes. -/
def within? (size : Nat) (r : Step σ) : Option (Step σ) :=
  if ∀ span ∈ r.spans.toList, span.length ≤ size then some r else none

/-- The checked step comes to the step itself. If that has no fault, it leaves a state with `P`. -/
structure InRange (P : σ → Prop) (checked : Option (Step σ)) (r : Step σ) : Prop where
  same : checked = some r
  keeps : r.fault = none → P r.state

section
variable {P : σ → Prop} {s : σ} {r : Step σ} {r? : Option (Step σ)}

theorem inRange_quiet (h : P s) : InRange P (some (quiet s)) (quiet s) := ⟨rfl, fun _ => h⟩

theorem inRange_write (h : P s) (span : Bytes) :
    InRange P (some (write s span)) (write s span) := ⟨rfl, fun _ => h⟩

theorem inRange_stop (s : σ) (e : Error) : InRange P (some (stop s e)) (stop s e) := ⟨rfl, nofun⟩

theorem inRange_andThen {f : σ → Step σ} {f? : σ → Option (Step σ)} {Q : σ → Prop}
    (hr : r.fault = none → P r.state) (hf : ∀ s, P s → InRange Q (f? s) (f s)) :
    InRange Q (r.andThen? f?) (r.andThen f) := by
  obtain ⟨state, spans, _ | e⟩ := r
  · obtain ⟨hsame, hnext⟩ := hf state (hr rfl)
    refine ⟨?_, hnext⟩
    simp [andThen?, Step.andThen, hsame]
  · refine ⟨rfl, ?_⟩
    intro hnone
    cases hnone

theorem InRange.andThen {f : σ → Step σ} {f? : σ → Option (Step σ)} {Q : σ → Prop}
    (hr : InRange P r? r) (hf : ∀ s, P s → InRange Q (f? s) (f s)) :
    InRange Q (r? >>= fun r => r.andThen? f?) (r.andThen f) := by
  obtain ⟨rfl, hkeeps⟩ := hr
  exact inRange_andThen hkeeps hf

/-- By induction on the inputs. -/
theorem InRange.run {f : σ → α → Step σ} {f? : σ → α → Option (Step σ)}
    (hf : ∀ s a, P s → InRange P (f? s a) (f s a)) (hs : P s) (inputs : List α) :
    InRange P (run? f? s inputs) (Step.run f s inputs) := by
  induction inputs generalizing s with
  | nil => exact inRange_quiet hs
  | cons a inputs ih =>
    rw [run_cons]
    exact (hf s a hs).andThen fun t ht => ih ht

theorem InRange.map {Q : τ → Prop} (h : InRange P r? r) {f : σ → τ} (hf : ∀ s, P s → Q (f s)) :
    InRange Q (r?.map (Step.map f)) (r.map f) := by
  obtain ⟨rfl, hkeeps⟩ := h
  exact ⟨rfl, fun hfault => hf _ (hkeeps hfault)⟩

theorem InRange.joined (h : InRange P r? r) : InRange P (r?.map Step.joined) r.joined := by
  obtain ⟨rfl, hkeeps⟩ := h
  refine ⟨rfl, ?_⟩
  unfold Step.joined
  split
  · exact nofun
  next hfault => exact fun _ => hkeeps hfault

theorem inRange_within {size : Nat} (hP : r.fault = none → P r.state)
    (hspans : ∀ span ∈ r.spans.toList, span.length ≤ size) : InRange P (r.within? size) r :=
  ⟨if_pos hspans, hP⟩

theorem InRange.mono {Q : σ → Prop} (h : InRange P r? r) (hpq : ∀ s, P s → Q s) : InRange Q r? r :=
  ⟨h.same, fun hfault => hpq _ (h.keeps hfault)⟩

end
end Step
end PdfStream
