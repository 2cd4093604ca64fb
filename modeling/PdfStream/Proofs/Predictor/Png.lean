import Mathlib.Data.List.MinMax
import PdfStream.Proofs.Predictor.Rows

/-!
PNG filtering, told from the side that writes: each row chooses one of five filters, gives its type
in a byte and goes out as differences to what the filter predicts. The predictor undoes it.
-/
namespace PdfStream.Predictor

inductive PngFilter where
  | none | sub | up | average | paeth
  deriving DecidableEq, Repr

namespace PngFilter

/-- The type byte in front of a row. -/
def type : PngFilter → UInt8
  | none => 0
  | sub => 1
  | up => 2
  | average => 3
  | paeth => 4

/-- Of the three neighbours the one nearest to left + above - upper left. Among equally near ones
left comes before above and above before upper left. -/
def nearest (left above upperLeft : UInt8) : UInt8 :=
  ([left, above, upperLeft].argmin fun neighbour =>
    ((left.toNat + above.toNat - upperLeft.toNat : ℤ) - neighbour.toNat).natAbs).getD 0

def predict (left above upperLeft : UInt8) : PngFilter → UInt8
  | none => 0
  | sub => left
  | up => above
  | average => UInt8.ofNat ((left.toNat + above.toNat) / 2)
  | paeth => nearest left above upperLeft

theorem argmin_three {α : Type} (f : α → Nat) (a b c : α) : [a, b, c].argmin f =
    some (if f a ≤ f b ∧ f a ≤ f c then a else if f b ≤ f c then b else c) := by
  simp only [List.argmin, List.foldl_cons, List.foldl_nil, List.argAux]
  rcases Nat.lt_or_ge (f b) (f a) with hab | hab
  · rw [if_pos hab, if_neg fun h => Nat.not_le.2 hab h.1]
    rcases Nat.lt_or_ge (f c) (f b) with hbc | hbc
    · rw [if_neg (Nat.not_le.2 hbc)]
      exact if_pos hbc
    · rw [if_pos hbc]
      exact if_neg (Nat.not_lt.2 hbc)
  · rw [if_neg (Nat.not_lt.2 hab)]
    rcases Nat.lt_or_ge (f c) (f a) with hac | hac
    · rw [if_neg fun h => Nat.not_le.2 hac h.2, if_neg (Nat.not_le.2 (Nat.lt_of_lt_of_le hac hab))]
      exact if_pos hac
    · rw [if_pos ⟨hab, hac⟩]
      exact if_neg (Nat.not_lt.2 hac)

theorem nearest_eq_paeth (left above upperLeft : UInt8) :
    nearest left above upperLeft = Predictor.paeth left above upperLeft := by
  rw [nearest, argmin_three]
  rfl

theorem predict?_type (filter : PngFilter) :
    predict? filter.type = some fun left above upperLeft =>
      filter.predict left above upperLeft := by
  cases filter with
  | none | sub | up | average => rfl
  | paeth =>
    refine congrArg some ?_
    funext left above upperLeft
    exact (nearest_eq_paeth left above upperLeft).symm

end PngFilter

/-- A filtered row behind its type byte. -/
def filterRow (filter : PngFilter) (distance : Nat) (above row : Bytes) : Bytes :=
  filter.type :: differences (fun left above upperLeft => filter.predict left above upperLeft)
    distance above row

/-- The rows after `above`, each filtered with regard to the one before it. -/
def filterRows (distance : Nat) : (above : Bytes) → List (PngFilter × Bytes) → Bytes
  | _, [] => []
  | above, (filter, row) :: rows => filterRow filter distance above row ++
      filterRows distance row rows

section
variable {l : Layout}

theorem length_filterRow (filter : PngFilter) (distance : Nat) (above row : Bytes) :
    (filterRow filter distance above row).length = row.length + 1 := by
  rw [filterRow, List.length_cons, length_differences]

theorem restore_filterRow (hpng : l.scheme = .png) (filter : PngFilter) (above row : Bytes) :
    restore l above.toArray (filterRow filter l.distance above row).toArray = .ok row.toArray := by
  rw [restore, hpng]
  simp only [filterRow, getD_toArray, List.getD_cons_zero, PngFilter.predict?_type,
    List.extract_toArray, List.extract_eq_take_drop, List.drop_one, List.tail_cons,
    List.size_toArray, List.length_cons, Nat.add_sub_cancel, List.take_length,
    restoreBytes_differences l.distance_pos]

/-- By induction on the rows. The last restored row is the one the next row was filtered with. -/
theorem run_filterRows {rows : List (PngFilter × Bytes)} {p : Predictor} {above : Bytes}
    (hpng : p.layout.scheme = .png) (hpending : p.pending = #[]) (habove : p.above = above.toArray)
    (hrows : ∀ row ∈ rows, row.2.length = p.layout.rowBytes) :
    ∃ q, (Step.run addByte p (filterRows p.layout.distance above rows)).Yields q
      (rows.map Prod.snd).flatten := by
  induction rows generalizing p above with
  | nil => exact ⟨p, Step.yields_quiet p⟩
  | cons first rows ih =>
    obtain ⟨filter, row⟩ := first
    have hsize : (filterRow filter p.layout.distance above row).length = p.layout.rowSize := by
      rw [length_filterRow, hrows _ List.mem_cons_self, Layout.rowSize, hpng]
    have hfirst : (Step.run addByte p (filterRow filter p.layout.distance above row)).Yields
        (p.accept row.toArray) row := by
      rw [run_addByte_row hpending hsize (List.cons_ne_nil _ _), complete, habove,
        restore_filterRow hpng]
      exact Step.yields_write _ _
    have habove' : (p.accept row.toArray).above = row.toArray := rfl
    obtain ⟨q, hrest⟩ := ih (p := p.accept row.toArray) hpng rfl habove'
      fun later hlater => hrows later (List.mem_cons_of_mem _ hlater)
    exact ⟨q, hfirst.run_append hrest⟩

end

/-- Rows of any length filtered at any distance, each row with a filter of its own, are restored,
whatever the pieces in which they come. -/
theorem push_filterRows (rowBytes distance : Nat) (hdistance : 1 ≤ distance) :
    (∃ l : Layout, l.scheme = .png ∧ l.rowBytes = rowBytes ∧ l.distance = distance) ∧
    ∀ l : Layout, l.scheme = .png → l.rowBytes = rowBytes → l.distance = distance →
      ∀ rows : List (PngFilter × Bytes), (∀ row ∈ rows, row.2.length = rowBytes) →
      ∀ blocks : List Bytes,
        blocks.flatten = filterRows distance (List.replicate rowBytes 0) rows →
        ((Step.run push (ofLayout l) blocks).andThen finish).output? =
          some (rows.map Prod.snd).flatten := by
  constructor
  · refine ⟨⟨.png, 8, distance, rowBytes⟩, rfl, rfl, ?_⟩
    rw [Layout.distance, Nat.mul_div_cancel distance (show 0 < 8 by decide),
      Nat.max_eq_right hdistance]
  · rintro l hpng rfl rfl rows hrows blocks hblocks
    have habove : (ofLayout l).above = (List.replicate l.rowBytes 0).toArray := by
      rw [ofLayout, List.toArray_replicate]
    obtain ⟨q, hrun⟩ := run_filterRows (p := ofLayout l) hpng rfl habove hrows
    have hpush : Step.run push (ofLayout l) blocks = Step.run addByte (ofLayout l) blocks.flatten :=
      Step.run_flatten addByte (ofLayout l) blocks
    have hfinish : q.finish.Yields { q with pending := #[] } [] := Step.yields_quiet _
    rw [hpush, hblocks, ← List.append_nil (rows.map Prod.snd).flatten]
    exact (hrun.andThen hfinish).output?

theorem push_filterRows_paeth_average :
    (∀ row ∈ [(PngFilter.paeth, ([10, 20, 30] : Bytes)), (.average, [7, 250, 9])],
      row.2.length = 3) ∧
    ([[4, 10, 20], [20, 3, 2, 240, 247]] : List Bytes).flatten =
      filterRows 2 (List.replicate 3 0) [(.paeth, [10, 20, 30]), (.average, [7, 250, 9])] ∧
    ((Step.run push (ofLayout ⟨.png, 8, 2, 3⟩) [[4, 10, 20], [20, 3, 2, 240, 247]]).andThen
      finish).output? = some [10, 20, 30, 7, 250, 9] := by
  have hrows : ∀ row ∈ [(PngFilter.paeth, ([10, 20, 30] : Bytes)), (.average, [7, 250, 9])],
      row.2.length = 3 := by decide
  have hblocks : ([[4, 10, 20], [20, 3, 2, 240, 247]] : List Bytes).flatten =
      filterRows 2 (List.replicate 3 0)
        [(.paeth, [10, 20, 30]), (.average, [7, 250, 9])] := by decide
  exact ⟨hrows, hblocks,
    (push_filterRows 3 2 (by decide)).2 ⟨.png, 8, 2, 3⟩ rfl rfl rfl _ hrows _ hblocks⟩

end PdfStream.Predictor
