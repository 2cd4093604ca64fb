import Mathlib.Data.List.GetD
import PdfStream.Proofs.Predictor

/-!
How a predictor assembles rows: bytes are kept until the last of a row, which is then restored as a
whole. Rows of differences give back the rows that the differences were taken of.
-/
namespace PdfStream.Predictor

section
variable {p : Predictor}

theorem addByte_of_short (h : p.pending.size + 1 < p.layout.rowSize) (b : UInt8) :
    p.addByte b = .quiet { p with pending := p.pending.push b } := by
  have hroom : p.pending.size < p.layout.rowSize := by omega
  rw [addByte, if_pos hroom, if_pos (by rwa [Array.size_push])]

/-- What the last byte of a row does. -/
def complete (p : Predictor) (row : Array UInt8) : Step Predictor :=
  match restore p.layout p.above row with
  | .ok restored => .write (p.accept restored) restored.toList
  | .error e => .stop { p with pending := row } e

theorem addByte_of_full (h : p.pending.size + 1 = p.layout.rowSize) (b : UInt8) :
    p.addByte b = p.complete (p.pending.push b) := by
  have hroom : p.pending.size < p.layout.rowSize := by omega
  have hfull : ¬(p.pending.push b).size < p.layout.rowSize := by
    rw [Array.size_push]
    omega
  rw [addByte, if_pos hroom, if_neg hfull]
  rfl

theorem run_addByte_of_short {data : Bytes}
    (h : p.pending.size + data.length < p.layout.rowSize) :
    Step.run addByte p data = .quiet { p with pending := p.pending ++ data.toArray } := by
  induction data generalizing p with
  | nil => rw [Step.run_nil, Array.append_empty]
  | cons b data ih =>
    rw [List.length_cons] at h
    have hrest : (p.pending.push b).size + data.length < p.layout.rowSize := by
      rw [Array.size_push]
      omega
    rw [Step.run_cons, addByte_of_short (by omega), Step.quiet_andThen,
      ih (p := { p with pending := p.pending.push b }) hrest]
    simp

/-- The bytes that a row is short of complete it. -/
theorem run_addByte_of_fills {data : Bytes}
    (h : p.pending.size + data.length = p.layout.rowSize) (hne : data ≠ []) :
    Step.run addByte p data = p.complete (p.pending ++ data.toArray) := by
  have hlength := List.length_pos_of_ne_nil hne
  have hshort : p.pending.size + data.dropLast.length < p.layout.rowSize := by
    rw [List.length_dropLast]
    omega
  have hfull : (p.pending ++ data.dropLast.toArray).size + 1 = p.layout.rowSize := by
    simp only [Array.size_append, List.size_toArray, List.length_dropLast]
    omega
  have hlast : (p.pending ++ data.dropLast.toArray).push (data.getLast hne) =
      p.pending ++ data.toArray := by
    rw [← Array.append_push, List.push_toArray, List.dropLast_append_getLast]
  conv_lhs => rw [← List.dropLast_append_getLast hne]
  rw [Step.run_append, run_addByte_of_short hshort, Step.quiet_andThen, Step.run_singleton,
    addByte_of_full (p := { p with pending := p.pending ++ data.dropLast.toArray }) hfull]
  simp only [hlast, complete, accept]

/-- A whole row comes in. -/
theorem run_addByte_row {row : Bytes} (hpending : p.pending = #[])
    (hrow : row.length = p.layout.rowSize) (hne : row ≠ []) :
    Step.run addByte p row = p.complete row.toArray := by
  have hfills : p.pending.size + row.length = p.layout.rowSize := by
    rw [hpending, Array.size_empty, Nat.zero_add, hrow]
  rw [run_addByte_of_fills hfills hne, hpending, Array.empty_append]

end

/-- The byte `distance` before place i of a row. Zeros stand before the row. -/
def earlier (distance : Nat) (row : Bytes) (i : Nat) : UInt8 :=
  if i < distance then 0 else row.getD (i - distance) 0

/-- What is left of a row when every byte is reduced by the prediction that its left, upper and
upper left neighbours give. -/
def differences (predict : UInt8 → UInt8 → UInt8 → UInt8) (distance : Nat) (above row : Bytes) :
    Bytes :=
  (List.range row.length).map fun i => row.getD i 0 -
    predict (earlier distance row i) (above.getD i 0) (earlier distance above i)

section
variable {predict : UInt8 → UInt8 → UInt8 → UInt8} {distance : Nat}

@[simp] theorem length_differences (above row : Bytes) :
    (differences predict distance above row).length = row.length := by
  rw [differences, List.length_map, List.length_range]

theorem getD_differences (above : Bytes) {row : Bytes} {i : Nat} (hi : i < row.length) :
    (differences predict distance above row).getD i 0 = row.getD i 0 -
      predict (earlier distance row i) (above.getD i 0) (earlier distance above i) := by
  rw [List.getD_eq_getElem _ _ (by rwa [length_differences])]
  simp only [differences, List.getElem_map, List.getElem_range]

theorem getD_toArray (row : Bytes) (i : Nat) : row.toArray.getD i 0 = row.getD i 0 := by
  rw [Array.getD_eq_getD_getElem?, List.getElem?_toArray, List.getD_eq_getElem?_getD]

theorem before_toArray (row : Bytes) (i : Nat) :
    before distance row.toArray i = earlier distance row i := by
  rw [before, earlier, getD_toArray]
  rcases Nat.lt_or_ge i distance with hi | hi
  · rw [if_neg (Nat.not_le.2 hi), if_pos hi]
  · rw [if_pos hi, if_neg (Nat.not_lt.2 hi)]

/-- The left neighbour is among the bytes that are already there. -/
theorem earlier_take (hdistance : 0 < distance) (row : Bytes) (i : Nat) :
    earlier distance (row.take i) i = earlier distance row i := by
  unfold earlier
  split_ifs with hi
  · rfl
  · rw [List.getD_eq_getElem?_getD, List.getD_eq_getElem?_getD,
      List.getElem?_take_of_lt (by omega)]

/-- By induction on the number of bytes that are restored: they are those of the row so far. -/
theorem restoreBytes_differences (hdistance : 0 < distance) (above row : Bytes) :
    restoreBytes predict distance above.toArray (differences predict distance above row).toArray =
      row.toArray := by
  have hprefix : ∀ n ≤ row.length,
      Nat.fold n (fun i _ done => done.push
        ((differences predict distance above row).toArray.getD i 0 +
          predict (before distance done i) (above.toArray.getD i 0)
            (before distance above.toArray i))) #[] = (row.take n).toArray := by
    intro n
    induction n with
    | zero => exact fun _ => rfl
    | succ n ih =>
      intro hn
      rw [Nat.fold_succ, ih (Nat.le_of_succ_le hn), before_toArray, before_toArray,
        getD_toArray, getD_toArray, earlier_take hdistance, getD_differences above hn,
        UInt8.sub_add_cancel, List.push_toArray, List.getD_eq_getElem _ _ hn,
        List.take_append_getElem]
  rw [restoreBytes, List.size_toArray, length_differences, hprefix _ (Nat.le_refl _),
    List.take_length]

end

end PdfStream.Predictor
