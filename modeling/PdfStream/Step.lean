import PdfStream.Error

/-!
One step of a streaming coder: the state it leaves, the spans of bytes it writes in order, and the
fault it stops with. Steps run one after the other until the first fault.
-/
namespace PdfStream

structure Step (σ : Type) where
  state : σ
  spans : Array Bytes := #[]
  fault : Option Error := none

namespace Step
variable {σ τ α : Type}

/-- Everything written, in one piece. -/
def bytes (r : Step σ) : Bytes := r.spans.toList.flatten

def quiet (state : σ) : Step σ := ⟨state, #[], none⟩

def write (state : σ) (span : Bytes) : Step σ := ⟨state, #[span], none⟩

def stop (state : σ) (error : Error) : Step σ := ⟨state, #[], some error⟩

def map (f : σ → τ) (r : Step σ) : Step τ := ⟨f r.state, r.spans, r.fault⟩

/-- Runs `f` on the state left, unless there was a fault. -/
def andThen (r : Step σ) (f : σ → Step σ) : Step σ :=
  match r with
  | ⟨state, spans, some error⟩ => ⟨state, spans, some error⟩
  | ⟨state, spans, none⟩ =>
    let next := f state
    ⟨next.state, spans ++ next.spans, next.fault⟩

/-- Feeds the inputs one at a time. -/
def run (f : σ → α → Step σ) (state : σ) (inputs : List α) : Step σ :=
  inputs.foldl (fun r a => r.andThen (f · a)) (quiet state)

/-- All spans as one, and none if there was a fault. -/
def joined (r : Step σ) : Step σ :=
  match r.fault with
  | some error => stop r.state error
  | none => write r.state r.bytes

/-- The same bytes in spans of `size`; the last may be shorter. -/
def inSpans (size : Nat) (r : Step σ) : Step σ :=
  { r with spans := (Bytes.chunks size r.bytes).toArray }

theorem bytes_inSpans {size : Nat} (h : size ≠ 0) (r : Step σ) :
    (r.inSpans size).bytes = r.bytes := by
  simp [inSpans, bytes, Bytes.flatten_chunks h]

@[simp] theorem state_quiet (s : σ) : (quiet s).state = s := rfl
@[simp] theorem bytes_quiet (s : σ) : (quiet s).bytes = [] := rfl
@[simp] theorem fault_quiet (s : σ) : (quiet s).fault = none := rfl
@[simp] theorem state_write (s : σ) (b : Bytes) : (write s b).state = s := rfl
@[simp] theorem bytes_write (s : σ) (b : Bytes) : (write s b).bytes = b := by
  simp [bytes, write]
@[simp] theorem fault_write (s : σ) (b : Bytes) : (write s b).fault = none := rfl
@[simp] theorem state_stop (s : σ) (e : Error) : (stop s e).state = s := rfl
@[simp] theorem bytes_stop (s : σ) (e : Error) : (stop s e).bytes = [] := rfl
@[simp] theorem fault_stop (s : σ) (e : Error) : (stop s e).fault = some e := rfl
@[simp] theorem state_map (f : σ → τ) (r : Step σ) : (r.map f).state = f r.state := rfl
@[simp] theorem bytes_map (f : σ → τ) (r : Step σ) : (r.map f).bytes = r.bytes := rfl
@[simp] theorem fault_map (f : σ → τ) (r : Step σ) : (r.map f).fault = r.fault := rfl

theorem andThen_of_fault {r : Step σ} {e : Error} (h : r.fault = some e) (f : σ → Step σ) :
    r.andThen f = r := by
  obtain ⟨state, spans, fault⟩ := r
  cases h
  rfl

theorem andThen_of_no_fault {r : Step σ} (h : r.fault = none) (f : σ → Step σ) :
    r.andThen f = ⟨(f r.state).state, r.spans ++ (f r.state).spans, (f r.state).fault⟩ := by
  obtain ⟨state, spans, fault⟩ := r
  cases h
  rfl

theorem bytes_andThen {r : Step σ} (h : r.fault = none) (f : σ → Step σ) :
    (r.andThen f).bytes = r.bytes ++ (f r.state).bytes := by
  rw [andThen_of_no_fault h]
  simp [bytes]

theorem andThen_assoc (r : Step σ) (f g : σ → Step σ) :
    (r.andThen f).andThen g = r.andThen fun s => (f s).andThen g := by
  obtain ⟨state, spans, _ | e⟩ := r
  · simp only [andThen]
    obtain ⟨state', spans', _ | e⟩ := f state
    · simp [Array.append_assoc]
    · rfl
  · rfl

@[simp] theorem quiet_andThen (s : σ) (f : σ → Step σ) : (quiet s).andThen f = f s := by
  simp [quiet, andThen]

@[simp] theorem run_nil (f : σ → α → Step σ) (s : σ) : run f s [] = quiet s := rfl

private theorem foldl_andThen (f : σ → α → Step σ) (r : Step σ) (inputs : List α) :
    inputs.foldl (fun r a => r.andThen (f · a)) r = r.andThen (run f · inputs) := by
  induction inputs generalizing r with
  | nil =>
    cases h : r.fault with
    | some e => simp [andThen_of_fault h]
    | none =>
      rw [andThen_of_no_fault h]
      obtain ⟨state, spans, fault⟩ := r
      cases h
      simp [run, quiet]
  | cons a inputs ih =>
    rw [List.foldl_cons, ih, andThen_assoc]
    congr 1
    funext s
    rw [run, List.foldl_cons, quiet_andThen, ih]

theorem run_cons (f : σ → α → Step σ) (s : σ) (a : α) (inputs : List α) :
    run f s (a :: inputs) = (f s a).andThen (run f · inputs) := by
  rw [run, List.foldl_cons, quiet_andThen, foldl_andThen]

/-- Cutting the input changes nothing. -/
theorem run_append (f : σ → α → Step σ) (s : σ) (xs ys : List α) :
    run f s (xs ++ ys) = (run f s xs).andThen (run f · ys) := by
  rw [run, List.foldl_append, foldl_andThen]
  rfl

end Step
end PdfStream
