import Mathlib.Data.Rat.Floor
import PdfStream.Proofs.Checked.Predictor

/-!
Which parameters a predictor is made from. They come from the data and may be any integers. A row is
computed in 64 bits, but what is refused, and the length of a row that is not, are those of the
numbers themselves.
-/
namespace PdfStream.Predictor

/-- The integer at a key; a truth value counts as 0 or 1. -/
inductive Gives (parms : Option DecodeParms) (key : String) (default : Int) : Int → Prop
  | absent (h : parms.bind (·.get? key) = none) : Gives parms key default default
  | int {i : Int} (h : parms.bind (·.get? key) = some (.int i)) : Gives parms key default i
  | bool {b : Bool} (h : parms.bind (·.get? key) = some (.bool b)) :
    Gives parms key default (if b then 1 else 0)

structure Asks (parms : Option DecodeParms) (predictor colors bits columns : Int) : Prop where
  predictor : Gives parms "Predictor" 1 predictor
  colors : Gives parms "Colors" 1 colors
  bits : Gives parms "BitsPerComponent" 8 bits
  columns : Gives parms "Columns" 1 columns

/-- The bytes that a row takes up, the last of which may be in use in part. -/
def rowLength (colors bits columns : Int) : Int := ⌈(colors * bits * columns : ℚ) / 8⌉

/-- What can be restored: known predictors, whole samples and rows of a limited length. -/
structure IsPossible (predictor colors bits columns : Int) : Prop where
  known : predictor = 2 ∨ 10 ≤ predictor ∧ predictor ≤ 15
  pixel : 1 ≤ colors
  row : 1 ≤ columns
  sample : bits ∈ [1, 2, 4, 8, 16]
  wholeBytes : predictor = 2 → bits ∈ [8, 16]
  length : rowLength colors bits columns ≤ 2 ^ 24

theorem Gives.intD {parms : DecodeParms} {key : String} {default value : Int}
    (h : Gives (some parms) key default value) : parms.intD key default = .ok value := by
  unfold DecodeParms.intD
  cases h with
  | absent h => rw [show parms.get? key = none from h]
  | int h => rw [show parms.get? key = _ from h]
  | bool h => rw [show parms.get? key = _ from h]

theorem Gives.eq_default {key : String} {default value : Int} (h : Gives none key default value) :
    value = default := by
  cases h with
  | absent => rfl
  | int h => cases h
  | bool h => cases h

theorem positive_of_gives {parms : DecodeParms} {key : String} {default value : Int}
    (h : Gives (some parms) key default value) :
    positive parms key default =
      if 0 < value then .ok value.toNat else .error (.configuration (.notPositive key)) := by
  simp only [positive, h.intD, bind, Except.bind]
  rfl

section
variable {colors bits columns : Nat}

theorem rowLength_eq (colors bits columns : Nat) :
    rowLength colors bits columns = ((colors * bits * columns + 7) / 8 : Nat) := by
  obtain ⟨size, hsize⟩ : ∃ size, (colors * bits * columns + 7) / 8 = size := ⟨_, rfl⟩
  have hbounds : 8 * size < colors * bits * columns + 8 ∧ colors * bits * columns ≤ 8 * size := by
    omega
  have hlow : (8 * size : ℚ) < colors * bits * columns + 8 := by exact_mod_cast hbounds.1
  have hhigh : (colors * bits * columns : ℚ) ≤ 8 * size := by exact_mod_cast hbounds.2
  rw [hsize, rowLength, Int.ceil_eq_iff]
  push_cast
  constructor
  · linarith
  · linarith

/-- Rows of a length that is accepted have few bits, and so do their pixels. -/
theorem product_lt_of_rowLength_le (hcolumns : 0 < columns)
    (h : rowLength colors bits columns ≤ 2 ^ 24) :
    colors * bits ≤ colors * bits * columns ∧ colors * bits * columns < 1 <<< 64 := by
  rw [rowLength_eq] at h
  constructor
  · exact Nat.le_mul_of_pos_right _ hcolumns
  · omega

/-- The left neighbour is in the row. -/
theorem Layout.distance_le (scheme : Scheme) (hcolors : 0 < colors) (hbits : 0 < bits)
    (hcolumns : 0 < columns) :
    (Layout.mk scheme bits colors ((colors * bits * columns + 7) / 8)).distance ≤
      (colors * bits * columns + 7) / 8 := by
  have hpos : 0 < colors * bits := Nat.mul_pos hcolors hbits
  have hpixel : colors * bits ≤ colors * bits * columns := Nat.le_mul_of_pos_right _ hcolumns
  refine max_le ?_ ?_
  · omega
  · exact Nat.div_le_div_right (Nat.le_add_right_of_le hpixel)

end

namespace Layout

theorem create_of_possible (scheme : Scheme) {colors bits columns : Nat}
    (hsample : bits ∈ [1, 2, 4, 8, 16]) (hwhole : scheme = .tiff → bits ∈ [8, 16])
    (hcolumns : 0 < columns) (hrow : rowLength colors bits columns ≤ 2 ^ 24) :
    create scheme colors bits columns =
      .ok ⟨scheme, bits, colors, (colors * bits * columns + 7) / 8⟩ := by
  obtain ⟨hpixel, hproduct⟩ := product_lt_of_rowLength_le hcolumns hrow
  rw [rowLength_eq] at hrow
  have hwords : ¬(scheme = .tiff ∧ bits ∉ [8, 16]) := fun h => h.2 (hwhole h.1)
  have hfits : ¬(1 <<< 64 ≤ colors * bits ∨ 1 <<< 64 ≤ colors * bits * columns) := by omega
  have hshort : ¬maxRowBytes < (colors * bits * columns + 7) / 8 := by
    unfold maxRowBytes
    omega
  rw [create, if_neg (not_not_intro hsample), if_neg hwords, if_neg hfits]
  exact if_neg hshort

theorem create_of_not_possible (scheme : Scheme) (colors bits columns : Nat)
    (h : ¬(bits ∈ [1, 2, 4, 8, 16] ∧
      (scheme = .tiff → bits ∈ [8, 16]) ∧ rowLength colors bits columns ≤ 2 ^ 24)) :
    ∃ fault, create scheme colors bits columns = .error (.configuration fault) := by
  unfold create
  dsimp only
  split_ifs with hsample hwhole hproduct hlong
  · exact ⟨_, rfl⟩
  · exact ⟨_, rfl⟩
  · exact ⟨_, rfl⟩
  · refine absurd ⟨hsample, ?_, ?_⟩ h
    · intro htiff
      by_contra hwords
      exact hwhole ⟨htiff, hwords⟩
    · rw [rowLength_eq]
      unfold maxRowBytes at hlong
      omega
  · exact ⟨_, rfl⟩

end Layout

section
variable {parms : DecodeParms} {predictor colors bits columns : Int}

def scheme? (predictor : Int) : Option Scheme :=
  if predictor = 2 then some .tiff
  else if 10 ≤ predictor ∧ predictor ≤ 15 then some .png
  else none

/-- The parameters are looked at in this order. -/
theorem layout?_eq (h : Asks (some parms) predictor colors bits columns) :
    layout? (some parms) =
      if predictor = 1 then .ok none
      else match scheme? predictor with
        | none => .error (.configuration (.unsupportedPredictor predictor))
        | some scheme =>
          if 0 < colors then
            if 0 < bits then
              if 0 < columns then
                (Layout.create scheme colors.toNat bits.toNat columns.toNat).map some
              else .error (.configuration (.notPositive "Columns"))
            else .error (.configuration (.notPositive "BitsPerComponent"))
          else .error (.configuration (.notPositive "Colors")) := by
  simp only [layout?, h.predictor.intD, positive_of_gives h.colors, positive_of_gives h.bits,
    positive_of_gives h.columns, bind, Except.bind]
  unfold scheme?
  by_cases hone : predictor = 1
  · rw [if_pos hone, if_pos hone]
    rfl
  rw [if_neg hone, if_neg hone]
  by_cases htiff : predictor = 2
  · simp only [htiff, if_true]
    split_ifs <;> rfl
  by_cases hpng : 10 ≤ predictor ∧ predictor ≤ 15
  · rw [if_neg htiff, if_neg htiff, if_pos hpng, if_pos hpng]
    split_ifs <;> rfl
  · rw [if_neg htiff, if_neg htiff, if_neg hpng, if_neg hpng]
    rfl

theorem scheme?_eq (predictor : Int) :
    (scheme? predictor = none ∧ ¬(predictor = 2 ∨ 10 ≤ predictor ∧ predictor ≤ 15)) ∨
      ∃ scheme, scheme? predictor = some scheme ∧
        (predictor = 2 ∨ 10 ≤ predictor ∧ predictor ≤ 15) ∧ (scheme = .tiff ↔ predictor = 2) := by
  unfold scheme?
  split_ifs with htiff hpng
  · exact Or.inr ⟨_, rfl, Or.inl htiff, by simp [htiff]⟩
  · exact Or.inr ⟨_, rfl, Or.inr hpng, by simp [htiff]⟩
  · exact Or.inl ⟨rfl, not_or.2 ⟨htiff, hpng⟩⟩

end

section
variable {parms : Option DecodeParms} {predictor colors bits columns : Int}

theorem ofParms_of_one (h : Asks parms 1 colors bits columns) : ofParms parms = .ok none := by
  apply ofParms_of_absent
  cases parms with
  | none => trivial
  | some parms => exact h.predictor.intD

/-- Without parameters there is no predictor. -/
theorem Asks.exists_parms (h : Asks parms predictor colors bits columns) (hone : predictor ≠ 1) :
    ∃ given, parms = some given := by
  cases parms with
  | none => exact absurd h.predictor.eq_default hone
  | some given => exact ⟨given, rfl⟩

theorem sample_natCast {bits : Nat} :
    ((bits : Int) ∈ [1, 2, 4, 8, 16] ↔ bits ∈ [1, 2, 4, 8, 16]) ∧
      ((bits : Int) ∈ [8, 16] ↔ bits ∈ [8, 16]) := by
  simp only [List.mem_cons, List.not_mem_nil, or_false]
  omega

theorem ofParms_of_possible (h : Asks parms predictor colors bits columns)
    (hpossible : IsPossible predictor colors bits columns) :
    ∃ layout, ofParms parms = .ok (some (ofLayout layout)) ∧
      (layout.scheme = .tiff ↔ predictor = 2) ∧ (layout.colors : Int) = colors ∧
      (layout.bits : Int) = bits ∧ (layout.rowBytes : Int) = rowLength colors bits columns ∧
      1 ≤ layout.distance ∧ layout.distance ≤ layout.rowBytes ∧
      layout.colors * layout.bits < 2 ^ 64 := by
  obtain ⟨hknown, hpixel, hrow, hsample, hwhole, hlength⟩ := hpossible
  have hone : predictor ≠ 1 := by omega
  obtain ⟨parms, rfl⟩ := h.exists_parms hone
  have hbits : 0 < bits := by
    simp only [List.mem_cons, List.not_mem_nil, or_false] at hsample
    omega
  lift colors to Nat using by omega
  lift bits to Nat using by omega
  lift columns to Nat using by omega
  obtain ⟨-, hunknown⟩ | ⟨scheme, hscheme, -, htiff⟩ := scheme?_eq predictor
  · exact absurd hknown hunknown
  have hcolumns : 0 < columns := by omega
  have hcreate := Layout.create_of_possible scheme (sample_natCast.1.1 hsample)
    (fun h => sample_natCast.2.1 (hwhole (htiff.1 h))) hcolumns hlength
  have hlayout : layout? (some parms) =
      .ok (some ⟨scheme, bits, colors, (colors * bits * columns + 7) / 8⟩) := by
    rw [layout?_eq h, if_neg hone, hscheme]
    dsimp only
    rw [if_pos (by omega), if_pos hbits, if_pos (by omega)]
    simp only [Int.toNat_natCast, hcreate]
    rfl
  obtain ⟨hbound, hproduct⟩ := product_lt_of_rowLength_le hcolumns hlength
  refine ⟨_, by rw [ofParms, hlayout]; rfl, htiff, rfl, rfl, ?_, Layout.distance_pos _, ?_, ?_⟩
  · exact (rowLength_eq colors bits columns).symm
  · exact Layout.distance_le scheme (by omega) (by omega) hcolumns
  · exact Nat.lt_of_le_of_lt hbound hproduct

theorem ofParms_of_not_possible (h : Asks parms predictor colors bits columns)
    (hone : predictor ≠ 1) (hnot : ¬IsPossible predictor colors bits columns) :
    ∃ fault, ofParms parms = .error (.configuration fault) := by
  obtain ⟨parms, rfl⟩ := h.exists_parms hone
  suffices hlayout : ∃ fault, layout? (some parms) = .error (.configuration fault) by
    obtain ⟨fault, hlayout⟩ := hlayout
    exact ⟨fault, by rw [ofParms, hlayout]; rfl⟩
  rw [layout?_eq h, if_neg hone]
  obtain ⟨hscheme, -⟩ | ⟨scheme, hscheme, hknown, htiff⟩ := scheme?_eq predictor
  · rw [hscheme]
    exact ⟨_, rfl⟩
  rw [hscheme]
  dsimp only
  split_ifs with hcolors hbits hcolumns
  · lift colors to Nat using by omega
    lift bits to Nat using by omega
    lift columns to Nat using by omega
    have hcreate := Layout.create_of_not_possible scheme colors bits columns fun hmade =>
        hnot ⟨hknown, hcolors, hcolumns, sample_natCast.1.2 hmade.1,
          fun h => sample_natCast.2.2 (hmade.2.1 (htiff.2 h)), hmade.2.2⟩
    obtain ⟨fault, hcreate⟩ := hcreate
    simp only [Int.toNat_natCast, hcreate]
    exact ⟨fault, rfl⟩
  · exact ⟨_, rfl⟩
  · exact ⟨_, rfl⟩
  · exact ⟨_, rfl⟩

/-- A predictor is made exactly for what is possible, however large the numbers are. What is made
has rows of the length that the numbers ask for, reaches no further to the left than a row, and
computes the distance to its neighbours in 64 bits. -/
theorem ofParms_exact (h : Asks parms predictor colors bits columns) :
    (ofParms parms = .ok none ↔ predictor = 1) ∧
      ((∃ p, ofParms parms = .ok (some p)) ↔ IsPossible predictor colors bits columns) ∧
      (predictor ≠ 1 → ¬IsPossible predictor colors bits columns →
        ∃ fault, ofParms parms = .error (.configuration fault)) ∧
      ∀ p, ofParms parms = .ok (some p) →
        (p.layout.rowBytes : Int) = rowLength colors bits columns ∧
          1 ≤ p.layout.distance ∧ p.layout.distance ≤ p.layout.rowBytes ∧
          (p.layout.colors : Int) = colors ∧ (p.layout.bits : Int) = bits ∧
          (p.layout.scheme = .tiff ↔ predictor = 2) ∧
          p.layout.colors * p.layout.bits < 2 ^ 64 := by
  rcases eq_or_ne predictor 1 with rfl | hone
  · rw [ofParms_of_one h]
    refine ⟨by simp, ⟨nofun, fun hpossible => ?_⟩, fun hone => absurd rfl hone, nofun⟩
    have hknown := hpossible.known
    omega
  by_cases hpossible : IsPossible predictor colors bits columns
  · obtain ⟨layout, hmade, htiff, hcolors, hbits, hlength, hpos, hle, hproduct⟩ :=
      ofParms_of_possible h hpossible
    rw [hmade]
    refine ⟨⟨nofun, fun heq => absurd heq hone⟩, ⟨fun _ => hpossible, fun _ => ⟨_, rfl⟩⟩,
      fun _ hnot => absurd hpossible hnot, ?_⟩
    rintro _ ⟨⟩
    exact ⟨hlength, hpos, hle, hcolors, hbits, htiff, hproduct⟩
  · obtain ⟨fault, hrefused⟩ := ofParms_of_not_possible h hone hpossible
    rw [hrefused]
    exact ⟨⟨nofun, fun heq => absurd heq hone⟩, ⟨nofun, fun h => absurd h hpossible⟩,
      fun _ _ => ⟨fault, rfl⟩, nofun⟩

/-- A row of 2^68 bits, which in 64 bits would be none at all. -/
def hugeRow : DecodeParms :=
  .ofList [("Predictor", .int 12), ("Colors", .int (2 ^ 62)), ("BitsPerComponent", .int 16),
    ("Columns", .int 4)]

theorem ofParms_hugeRow :
    Asks (some hugeRow) 12 (2 ^ 62) 16 4 ∧ 2 ^ 62 * 16 * 4 % 2 ^ 64 = 0 ∧
      ∃ fault, ofParms (some hugeRow) = .error (.configuration fault) := by
  have hasks : Asks (some hugeRow) 12 (2 ^ 62) 16 4 := ⟨.int rfl, .int rfl, .int rfl, .int rfl⟩
  refine ⟨hasks, by decide, (ofParms_exact hasks).2.2.1 (by decide) fun hpossible => ?_⟩
  have hlength := hpossible.length
  rw [show ((2 : Int) ^ 62) = ((2 ^ 62 : Nat) : Int) by norm_num] at hlength
  exact absurd ((rowLength_eq (2 ^ 62) 16 4).symm.trans_le hlength) (by decide)

end

end PdfStream.Predictor
