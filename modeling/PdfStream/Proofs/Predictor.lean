import PdfStream.Predictor
import PdfStream.Proofs.Coder

/-!
What a predictor makes of decoded bytes. Only the bytes matter, not the pieces in which they come.
-/
namespace PdfStream.Predictor

theorem Layout.distance_pos (l : Layout) : 0 < l.distance :=
  Nat.lt_of_lt_of_le Nat.zero_lt_one (Nat.le_max_left 1 _)

/-- Parameters that ask for no predictor; 1 is the default and stands for none. -/
def IsAbsent : Option DecodeParms → Prop
  | none => True
  | some parms => parms.intD "Predictor" 1 = .ok 1

theorem ofParms_of_absent {parms : Option DecodeParms} (h : IsAbsent parms) :
    ofParms parms = .ok none := by
  cases parms with
  | none => rfl
  | some parms =>
    have hint : parms.intD "Predictor" 1 = .ok 1 := h
    have hlayout : layout? (some parms) = .ok none := by
      rw [layout?, hint]
      rfl
    rw [ofParms, hlayout]
    rfl

/-- What comes out if `data` are still to be handed on. -/
def total (out : Step (Option Predictor)) (data : Bytes) : Option Bytes :=
  (out.andThen (pass · data)).output?

theorem total_of_fault {out : Step (Option Predictor)} {e : Error} (h : out.fault = some e)
    (data : Bytes) : total out data = none := by
  rw [total, Step.andThen_of_fault h, Step.output?_of_fault h]

theorem total_of_no_fault {out : Step (Option Predictor)} (h : out.fault = none) (data : Bytes) :
    total out data = (pass out.state data).output?.map (out.bytes ++ ·) := by
  rw [total, Step.output?_andThen, Step.output?_of_no_fault h, Option.bind_some]

/-- An incomplete row does not show. -/
theorem output?_close (p : Option Predictor) : (close p).output? = some [] := by
  cases p <;> rfl

theorem pass_nil (p : Option Predictor) : (pass p []).Yields p [] := by
  cases p with
  | none => exact Step.yields_write none []
  | some p => exact (Step.yields_quiet p).map some

/-- One piece after the other is all of them together. -/
theorem pass_append (p : Option Predictor) (xs ys : Bytes) :
    (pass p (xs ++ ys)).Agrees ((pass p xs).andThen (pass · ys)) := by
  cases p with
  | none =>
    have hboth := (Step.yields_write (none : Option Predictor) xs).andThen (f := (pass · ys))
      (Step.yields_write none ys)
    exact ⟨(Step.output?_write none _).trans hboth.output?.symm, fun _ => hboth.2.1.symm⟩
  | some p =>
    have hrun : pass (some p) (xs ++ ys) = (pass (some p) xs).andThen (pass · ys) := by
      rw [pass, push, Step.run_append]
      exact Step.map_andThen _ _ some (pass · ys) fun s => rfl
    rw [hrun]
    exact .refl _

theorem total_pass (out : Step (Option Predictor)) (xs ys : Bytes) :
    total (out.andThen (pass · xs)) ys = total out (xs ++ ys) := by
  rw [total, total, Step.andThen_assoc, Step.output?_andThen out, Step.output?_andThen out,
    (pass_append out.state xs ys).1]

theorem total_nil {out : Step (Option Predictor)} (h : out.fault = none) :
    total out [] = some out.bytes := by
  rw [total_of_no_fault h, (pass_nil out.state).output?, Option.map_some, List.append_nil]

/-- What a predictor makes of all decoded bytes in one piece. Without one they stay as they are. -/
def postPass (p : Option Predictor) (data : Bytes) : Option Bytes :=
  match p with
  | none => some data
  | some p => ((p.push data).andThen finish).output?

theorem bind_postPass_none (rest : Option Bytes) : rest.bind (postPass none) = rest := by
  cases rest <;> rfl

theorem total_quiet (p : Option Predictor) (data : Bytes) :
    total (.quiet p) data = postPass p data := by
  rw [total, Step.quiet_andThen]
  cases p with
  | none => exact Step.output?_write none data
  | some p =>
    have hfinish (s : Predictor) : s.finish.output? = some [] := rfl
    simp [pass, postPass, Step.output?_andThen, hfinish]

/-- What comes out in the end: `out`, an open piece, and the rest, if there is going to be one. -/
def inStore (rest : Option Bytes) (piece : Bytes) (out : Step (Option Predictor)) : Option Bytes :=
  rest.bind fun rest => total out (piece ++ rest)

/-- Before anything came out, the predictor has all that is to come before it. -/
theorem inStore_quiet (rest : Option Bytes) (p : Option Predictor) :
    inStore rest [] (.quiet p) = rest.bind (postPass p) := by
  cases rest with
  | none => rfl
  | some rest => exact total_quiet p rest

theorem inStore_map (rest : Option Bytes) (piece piece' : Bytes) (out : Step (Option Predictor)) :
    inStore (rest.map (piece' ++ ·)) piece out = inStore rest (piece ++ piece') out := by
  cases rest with
  | none => rfl
  | some rest =>
    rw [inStore, inStore, Option.map_some, Option.bind_some, Option.bind_some, List.append_assoc]

theorem inStore_pass (rest : Option Bytes) (piece piece' : Bytes) (out : Step (Option Predictor)) :
    inStore rest piece' (out.andThen (pass · piece)) = inStore rest (piece ++ piece') out := by
  unfold inStore
  congr 1
  funext later
  rw [total_pass, List.append_assoc]

theorem inStore_of_fault {out : Step (Option Predictor)} {e : Error} (h : out.fault = some e)
    (rest : Option Bytes) (piece : Bytes) : inStore rest piece out = none := by
  cases rest with
  | none => rfl
  | some rest => exact total_of_fault h _

theorem inStore_of_no_fault {out : Step (Option Predictor)} (h : out.fault = none)
    (rest : Option Bytes) (piece : Bytes) :
    inStore rest piece out = (inStore rest piece (.quiet out.state)).map (out.bytes ++ ·) := by
  unfold inStore
  cases rest with
  | none => rfl
  | some rest =>
    rw [Option.bind_some, Option.bind_some, total_of_no_fault h,
      total_of_no_fault (Step.fault_quiet out.state)]
    simp

theorem inStore_eq (rest : Option Bytes) (piece : Bytes) (out : Step (Option Predictor)) :
    inStore rest piece out = out.output?.bind fun bytes =>
      (inStore rest piece (.quiet out.state)).map (bytes ++ ·) := by
  cases hfault : out.fault with
  | some e => rw [inStore_of_fault hfault, Step.output?_of_fault hfault, Option.bind_none]
  | none => rw [inStore_of_no_fault hfault, Step.output?_of_no_fault hfault, Option.bind_some]

theorem inStore_passAll (out : Step (Option Predictor)) (pieces : List Bytes)
    (rest : Option Bytes) (piece : Bytes) :
    inStore rest piece (passAll out pieces).1 = inStore rest (pieces.flatten ++ piece) out := by
  induction pieces generalizing out with
  | nil => rfl
  | cons first pieces ih =>
    rw [passAll, List.flatten_cons, List.append_assoc, ← inStore_pass]
    split
    next hfault =>
      obtain ⟨e, he⟩ := Option.isSome_iff_exists.1 hfault
      rw [inStore_of_fault he, inStore_of_fault he]
    next => exact ih _

/-- Pieces are left only by a fault. -/
theorem passAll_left {out : Step (Option Predictor)} {pieces : List Bytes}
    (h : (passAll out pieces).1.fault = none) : (passAll out pieces).2 = [] := by
  induction pieces generalizing out with
  | nil => rfl
  | cons piece pieces ih =>
    rw [passAll] at h ⊢
    split at h
    next hfault =>
      dsimp only at h
      rw [h] at hfault
      cases hfault
    next hfault =>
      rw [if_neg hfault]
      exact ih h

end PdfStream.Predictor
