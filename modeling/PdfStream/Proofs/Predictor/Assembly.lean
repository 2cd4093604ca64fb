import Mathlib.Data.List.TakeWhile
import PdfStream.Proofs.Checked.Predictor
import PdfStream.Proofs.Predictor.Rows

/-!
What a predictor makes of all its data, told by rows: the complete rows are restored in order, each
with regard to the one that came out before it, up to the first whose filter is unknown. Neither the
pieces in which the data come nor an incomplete row at their end show.
-/
namespace PdfStream.Predictor

/-- The whole pieces of `size` bytes, without the rest. -/
def completeRows (size : Nat) (data : Bytes) : List Bytes :=
  (List.range (data.length / size)).map fun i => (data.drop (i * size)).take size

/-- A PNG row names one of five filters. -/
def Layout.Accepts (l : Layout) (row : Bytes) : Prop := l.scheme = .png → row.headD 0 ≤ 4

instance (l : Layout) (row : Bytes) : Decidable (l.Accepts row) := by
  unfold Layout.Accepts
  infer_instance

/-- What comes out for a row under the row `above`. -/
def restoreRow (l : Layout) (above row : Bytes) : Bytes :=
  match restore l above.toArray row.toArray with
  | .ok restored => restored.toList
  | .error _ => []

/-- The rows that come out, each restored under the one before it. -/
def outputRows (l : Layout) : (above : Bytes) → List Bytes → List Bytes
  | _, [] => []
  | above, row :: rows => restoreRow l above row :: outputRows l (restoreRow l above row) rows

theorem length_completeRows (size : Nat) (data : Bytes) :
    (completeRows size data).length = data.length / size := by
  rw [completeRows, List.length_map, List.length_range]

theorem length_of_mem_completeRows {size : Nat} {data row : Bytes}
    (h : row ∈ completeRows size data) : row.length = size := by
  obtain ⟨i, hi, rfl⟩ := List.mem_map.1 h
  have hroom : (i + 1) * size ≤ data.length :=
    Nat.le_trans (Nat.mul_le_mul_right size (List.mem_range.1 hi)) (Nat.div_mul_le_self _ _)
  rw [Nat.succ_mul] at hroom
  rw [List.length_take, List.length_drop]
  omega

/-- By induction on the number of rows. -/
theorem flatten_pieces (size : Nat) (data : Bytes) (count : Nat) :
    ((List.range count).map fun i => (data.drop (i * size)).take size).flatten =
      data.take (count * size) := by
  induction count with
  | zero => rw [Nat.zero_mul, List.take_zero, List.range_zero, List.map_nil, List.flatten_nil]
  | succ count ih =>
    rw [List.range_succ, List.map_append, List.flatten_append, ih, List.map_singleton,
      List.flatten_singleton, Nat.succ_mul, List.take_add]

/-- The rows and the rest are the data. -/
theorem exists_rest {size : Nat} (hsize : 0 < size) (data : Bytes) :
    ∃ rest, data = (completeRows size data).flatten ++ rest ∧ rest.length < size := by
  refine ⟨data.drop (data.length / size * size), ?_, ?_⟩
  · rw [completeRows, flatten_pieces, List.take_append_drop]
  · have hmod := Nat.mod_lt data.length hsize
    have hdiv := Nat.div_add_mod' data.length size
    rw [List.length_drop]
    omega

theorem predict?_of_le {tag : UInt8} (h : tag ≤ 4) : ∃ predict, predict? tag = some predict := by
  have htag : tag.toNat ≤ 4 := UInt8.le_iff_toNat_le.1 h
  have hcases : tag.toNat = 0 ∨ tag.toNat = 1 ∨ tag.toNat = 2 ∨ tag.toNat = 3 ∨ tag.toNat = 4 := by
    omega
  rcases hcases with htag | htag | htag | htag | htag
  all_goals
    simp only [predict?, htag]
    exact ⟨_, rfl⟩

theorem predict?_of_lt {tag : UInt8} (h : 4 < tag) : predict? tag = none := by
  have htag : 4 < tag.toNat := UInt8.lt_iff_toNat_lt.1 h
  obtain ⟨n, hn⟩ : ∃ n, tag.toNat = n + 5 := ⟨tag.toNat - 5, by omega⟩
  simp only [predict?, hn]

section
variable {l : Layout} {row : Bytes}

theorem getD_zero_toArray (row : Bytes) : row.toArray.getD 0 0 = row.headD 0 := by
  rw [getD_toArray]
  cases row <;> rfl

theorem restore_of_accepts (h : l.Accepts row) (above : Bytes) :
    restore l above.toArray row.toArray = .ok (restoreRow l above row).toArray := by
  have hsome : ∃ restored, restore l above.toArray row.toArray = .ok restored := by
    unfold restore
    cases hscheme : l.scheme with
    | png =>
      obtain ⟨predict, hpredict⟩ := predict?_of_le (h hscheme)
      simp only [getD_zero_toArray, hpredict]
      exact ⟨_, rfl⟩
    | tiff =>
      by_cases hbits : l.bits = 8
      · simp only [if_pos hbits]
        exact ⟨_, rfl⟩
      · simp only [if_neg hbits]
        exact ⟨_, rfl⟩
  obtain ⟨restored, hrestored⟩ := hsome
  rw [restoreRow, hrestored]

theorem restore_of_not_accepts (h : ¬l.Accepts row) (above : Array UInt8) :
    restore l above row.toArray = .error (.decode (.pngFilter (row.headD 0))) := by
  obtain ⟨hscheme, htag⟩ := Classical.not_imp.1 h
  simp only [restore, hscheme, getD_zero_toArray, predict?_of_lt (UInt8.not_le.1 htag)]

end

section
variable {p : Predictor}

/-- What restores the next row: the rows before it have left only the last of them. -/
structure Between (p : Predictor) (l : Layout) (above : Bytes) : Prop where
  layout : p.layout = l
  pending : p.pending = #[]
  above : p.above = above.toArray

theorem run_addByte_of_accepts {l : Layout} {above row : Bytes} (h : p.Between l above)
    (hrow : row.length = l.rowSize) (hne : row ≠ []) (haccepts : l.Accepts row) :
    ∃ q, (Step.run addByte p row).Yields q (restoreRow l above row) ∧
      q.Between l (restoreRow l above row) := by
  refine ⟨p.accept (restoreRow l above row).toArray, ?_, h.layout, rfl, rfl⟩
  rw [run_addByte_row h.pending (h.layout ▸ hrow) hne, complete, h.layout, h.above,
    restore_of_accepts haccepts]
  exact Step.yields_write _ _

/-- Pieces do not show. -/
theorem run_push (p : Predictor) (blocks : List Bytes) :
    Step.run push p blocks = Step.run addByte p blocks.flatten :=
  Step.run_flatten addByte p blocks

/-- By induction on the rows. -/
theorem run_addByte_rows {l : Layout} (hpos : 0 < l.rowSize) {above : Bytes} {rows : List Bytes}
    (h : p.Between l above) (hrows : ∀ row ∈ rows, row.length = l.rowSize ∧ l.Accepts row) :
    ∃ q last, (Step.run addByte p rows.flatten).Yields q (outputRows l above rows).flatten ∧
      q.Between l last := by
  induction rows generalizing p above with
  | nil => exact ⟨p, above, Step.yields_quiet p, h⟩
  | cons row rows ih =>
    obtain ⟨⟨hrow, haccepts⟩, hrest⟩ := List.forall_mem_cons.1 hrows
    have hne : row ≠ [] := List.ne_nil_of_length_pos (by omega)
    obtain ⟨q, hq, hbetween⟩ := run_addByte_of_accepts h hrow hne haccepts
    obtain ⟨q', last, hq', hbetween'⟩ := ih hbetween hrest
    exact ⟨q', last, hq.run_append hq', hbetween'⟩

/-- A row with an unknown filter ends the run. -/
theorem run_addByte_of_not_accepts {l : Layout} {above row : Bytes} (h : p.Between l above)
    (hrow : row.length = l.rowSize) (hne : row ≠ []) (hnot : ¬l.Accepts row) (more : Bytes) :
    (Step.run addByte p (row ++ more)).bytes = [] ∧
      (Step.run addByte p (row ++ more)).fault =
        some (.decode (.pngFilter (row.headD 0))) := by
  have hstop : Step.run addByte p row =
      .stop { p with pending := row.toArray } (.decode (.pngFilter (row.headD 0))) := by
    rw [run_addByte_row h.pending (h.layout ▸ hrow) hne, complete, h.layout,
      restore_of_not_accepts hnot]
  rw [Step.run_append, hstop, Step.andThen_of_fault (Step.fault_stop _ _)]
  exact ⟨rfl, rfl⟩

/-- All rows are accepted, or there is a first one that is not. -/
theorem takeWhile_cases {α : Type} (P : α → Prop) [DecidablePred P] (rows : List α) :
    (rows.takeWhile (fun row => P row) = rows ∧ rows.find? (fun row => ¬P row) = none) ∨
      ∃ row more, rows = rows.takeWhile (fun row => P row) ++ row :: more ∧ ¬P row ∧
        rows.find? (fun row => ¬P row) = some row := by
  induction rows with
  | nil => exact .inl ⟨rfl, rfl⟩
  | cons row rows ih =>
    by_cases hrow : P row
    · have htake : (row :: rows).takeWhile (fun row => P row) =
          row :: rows.takeWhile (fun row => P row) :=
        List.takeWhile_cons_of_pos (decide_eq_true hrow)
      have hfind : (row :: rows).find? (fun row => ¬P row) = rows.find? (fun row => ¬P row) :=
        List.find?_cons_of_neg (by simpa using hrow)
      simpa only [htake, hfind, List.cons.injEq, true_and, List.cons_append] using ih
    · refine .inr ⟨row, rows, ?_, hrow, ?_⟩
      · rw [List.takeWhile_cons_of_neg (by simpa using hrow), List.nil_append]
      · exact List.find?_cons_of_pos (decide_eq_true hrow)

/-- The rows before the first with an unknown filter come out, and that one is the fault. -/
theorem run_addByte_eq_rows {l : Layout} (hpos : 0 < l.rowSize) {above : Bytes}
    (h : p.Between l above) (data : Bytes) :
    (Step.run addByte p data).bytes = (outputRows l above
      ((completeRows l.rowSize data).takeWhile fun row => l.Accepts row)).flatten ∧
    (Step.run addByte p data).fault =
      ((completeRows l.rowSize data).find? fun row => ¬l.Accepts row).map fun row =>
        .decode (.pngFilter (row.headD 0)) := by
  obtain ⟨rest, hdata, hrest⟩ := exists_rest hpos data
  have hlengths : ∀ row ∈ completeRows l.rowSize data, row.length = l.rowSize :=
    fun _ hrow => length_of_mem_completeRows hrow
  generalize completeRows l.rowSize data = rows at *
  have hgood : ∀ row ∈ rows.takeWhile (fun row => l.Accepts row),
      row.length = l.rowSize ∧ l.Accepts row := by
    intro row hrow
    have haccepts := List.mem_takeWhile_imp (p := fun row => decide (l.Accepts row)) hrow
    exact ⟨hlengths row (List.takeWhile_subset _ hrow), of_decide_eq_true haccepts⟩
  obtain ⟨q, last, hrun, hbetween⟩ := run_addByte_rows hpos h hgood
  rcases takeWhile_cases l.Accepts rows with ⟨hall, hnone⟩ | ⟨row, more, hsplit, hnot, hsome⟩
  · have hshort : q.pending.size + rest.length < q.layout.rowSize := by
      rwa [hbetween.pending, hbetween.layout, Array.size_empty, Nat.zero_add]
    have hquiet := Step.yields_quiet { q with pending := q.pending ++ rest.toArray }
    rw [← run_addByte_of_short hshort] at hquiet
    rw [hall] at hrun ⊢
    have hboth := hrun.run_append hquiet
    rw [← hdata, List.append_nil] at hboth
    exact ⟨hboth.2.2, by rw [hboth.1, hnone]; rfl⟩
  · have hmem : row ∈ rows := by
      rw [hsplit]
      exact List.mem_append_right _ List.mem_cons_self
    have hne : row ≠ [] := List.ne_nil_of_length_pos (by rwa [hlengths row hmem])
    obtain ⟨hbytes, hfault⟩ := run_addByte_of_not_accepts hbetween (hlengths row hmem) hne hnot
      (more.flatten ++ rest)
    have hwhole : data = (rows.takeWhile fun row => l.Accepts row).flatten ++
        (row ++ (more.flatten ++ rest)) := by
      rw [hdata]
      conv_lhs => rw [hsplit]
      simp only [List.flatten_append, List.flatten_cons, List.append_assoc]
    rw [hwhole, Step.run_append, Step.fault_andThen hrun.1, Step.bytes_andThen hrun.1, hrun.2.1,
      hrun.2.2, hbytes, hfault, List.append_nil, hsome]
    exact ⟨rfl, rfl⟩

end

section
variable {parms : Option DecodeParms} {p : Predictor}

theorem between_ofLayout (l : Layout) : (ofLayout l).Between l (List.replicate l.rowBytes 0) := by
  refine ⟨rfl, rfl, ?_⟩
  rw [ofLayout, List.toArray_replicate]

theorem between_of_ofParms (h : ofParms parms = .ok (some p)) :
    p.Between p.layout (List.replicate p.layout.rowBytes 0) := by
  obtain ⟨l, -, rfl⟩ := layout?_of_ofParms h
  exact between_ofLayout l

theorem length_restoreRow {l : Layout} (hl : l.IsSound) {above row : Bytes}
    (habove : above.length = l.rowBytes) (hrow : row.length = l.rowSize)
    (haccepts : l.Accepts row) : (restoreRow l above row).length = l.rowBytes := by
  have hp : InBounds { ofLayout l with above := above.toArray } :=
    { inBounds_ofLayout hl with above := habove }
  have hsize : row.toArray.size = (ofLayout l).layout.rowSize := hrow
  exact (hp.restore?_spec hsize).2 _ (restore_of_accepts haccepts above)

/-- By induction on the rows. -/
theorem length_outputRows {l : Layout} (hl : l.IsSound) {above : Bytes}
    (habove : above.length = l.rowBytes) {rows : List Bytes}
    (hrows : ∀ row ∈ rows, row.length = l.rowSize ∧ l.Accepts row) :
    (outputRows l above rows).flatten.length = rows.length * l.rowBytes := by
  induction rows generalizing above with
  | nil => rw [outputRows, List.flatten_nil, List.length_nil, List.length_nil, Nat.zero_mul]
  | cons row rows ih =>
    obtain ⟨⟨hrow, haccepts⟩, hrest⟩ := List.forall_mem_cons.1 hrows
    have hlength := length_restoreRow hl habove hrow haccepts
    rw [outputRows, List.flatten_cons, List.length_append, ih hlength hrest, hlength,
      List.length_cons, Nat.succ_mul, Nat.add_comm]

/-- A predictor takes the complete rows of its data one after the other, whatever the pieces in
which the data come. If all of them have a known filter, one row comes out for each, and what is
left of the data is dropped. If not, the rows before the first with an unknown filter come out, and
that filter is the fault. -/
theorem push_blocks_eq_rows (h : ofParms parms = .ok (some p)) (blocks : List Bytes) :
    let l := p.layout
    let rows := completeRows l.rowSize blocks.flatten
    let written := ((Step.run push p blocks).andThen finish).bytes
    let fault := ((Step.run push p blocks).andThen finish).fault
    (0 < l.rowSize ∧ rows.length = blocks.flatten.length / l.rowSize) ∧
    written = (outputRows l (List.replicate l.rowBytes 0)
      (rows.takeWhile fun row => l.Accepts row)).flatten ∧
    fault = (rows.find? fun row => ¬l.Accepts row).map
      (fun row => .decode (.pngFilter (row.headD 0))) ∧
    ((∀ row ∈ rows, l.Accepts row) → fault = none ∧
      written.length = blocks.flatten.length / l.rowSize * l.rowBytes) := by
  dsimp only
  have hbounds := inBounds_ofParms h
  have hpos : 0 < p.layout.rowSize := Nat.lt_of_le_of_lt (Nat.zero_le _) hbounds.pending
  have hpush := run_push p blocks
  obtain ⟨hbytes, hfault⟩ := run_addByte_eq_rows hpos (between_of_ofParms h) blocks.flatten
  have hfinish : ((Step.run push p blocks).andThen finish).bytes = (Step.run push p blocks).bytes ∧
      ((Step.run push p blocks).andThen finish).fault = (Step.run push p blocks).fault := by
    cases hr : (Step.run push p blocks).fault with
    | none =>
      rw [Step.bytes_andThen hr, Step.fault_andThen hr]
      exact ⟨List.append_nil _, rfl⟩
    | some e =>
      rw [Step.andThen_of_fault hr]
      exact ⟨rfl, hr⟩
  rw [hfinish.1, hfinish.2, hpush, hbytes, hfault]
  refine ⟨⟨hpos, length_completeRows _ _⟩, rfl, rfl, ?_⟩
  intro hall
  have hnone : (completeRows p.layout.rowSize blocks.flatten).find?
      (fun row => ¬p.layout.Accepts row) = none := by
    rw [List.find?_eq_none]
    intro row hrow
    simpa using hall row hrow
  have htake : (completeRows p.layout.rowSize blocks.flatten).takeWhile
      (fun row => p.layout.Accepts row) = completeRows p.layout.rowSize blocks.flatten :=
    List.takeWhile_eq_self_iff.2 fun row hrow => decide_eq_true (hall row hrow)
  have hrows : ∀ row ∈ completeRows p.layout.rowSize blocks.flatten,
      row.length = p.layout.rowSize ∧ p.layout.Accepts row :=
    fun row hrow => ⟨length_of_mem_completeRows hrow, hall row hrow⟩
  rw [hnone, htake, length_outputRows hbounds.layout List.length_replicate hrows,
    length_completeRows]
  exact ⟨rfl, rfl⟩

end

/-- The second of two rows that come in three pieces has no filter of PNG; a third is incomplete. -/
theorem push_blocks_eq_rows_unknown_filter :
    ofParms (some (.ofList [("Predictor", .int 12), ("Columns", .int 2)])) =
        .ok (some (ofLayout ⟨.png, 8, 1, 2⟩)) ∧
      ((Step.run push (ofLayout ⟨.png, 8, 1, 2⟩) [[0, 10], [20, 7, 1], [2, 4]]).andThen
        finish).bytes = [10, 20] ∧
      ((Step.run push (ofLayout ⟨.png, 8, 1, 2⟩) [[0, 10], [20, 7, 1], [2, 4]]).andThen
        finish).fault = some (.decode (.pngFilter 7)) := by
  have hparms : ofParms (some (.ofList [("Predictor", .int 12), ("Columns", .int 2)])) =
      .ok (some (ofLayout ⟨.png, 8, 1, 2⟩)) := by rfl
  obtain ⟨-, hbytes, hfault, -⟩ := push_blocks_eq_rows hparms [[0, 10], [20, 7, 1], [2, 4]]
  have hrows : outputRows ⟨.png, 8, 1, 2⟩ [0, 0] ((completeRows 3 [0, 10, 20, 7, 1, 2, 4]).takeWhile
      fun row => Layout.Accepts ⟨.png, 8, 1, 2⟩ row) = [[10, 20]] := by decide
  have hfirst : (completeRows 3 [0, 10, 20, 7, 1, 2, 4]).find?
      (fun row => ¬Layout.Accepts ⟨.png, 8, 1, 2⟩ row) = some [7, 1, 2] := by decide
  exact ⟨hparms, hbytes.trans (congrArg List.flatten hrows),
    hfault.trans (congrArg (Option.map _) hfirst)⟩

end PdfStream.Predictor
