import PdfStream.Proofs.Predictor.Assembly
import PdfStream.Proofs.Predictor.Parameters
import PdfStream.Proofs.Predictor.Png

/-!
How far the left neighbour of a byte is. Writers take the bytes of a pixel rounded up, the predictor
rounds down. The two agree for pixels of whole bytes and for those that fit into one byte, and for
no others: rows of longer pixels that end within a byte are not restored.
-/
namespace PdfStream.Predictor

/-- The bytes that a pixel takes up, the last of which may be in use in part. -/
def pixelLength (colors bits : Int) : Int := ⌈(colors * bits : ℚ) / 8⌉

theorem pixelLength_eq (colors bits : Nat) :
    pixelLength colors bits = ((colors * bits + 7) / 8 : Nat) := by
  have hrow : pixelLength colors bits = rowLength colors bits 1 := by
    simp [pixelLength, rowLength]
  have hlength := rowLength_eq colors bits 1
  rw [Nat.mul_one] at hlength
  exact hrow.trans hlength

theorem Layout.distance_eq_iff (l : Layout) (hpixel : 0 < l.colors * l.bits) :
    l.distance = (l.colors * l.bits + 7) / 8 ↔ l.colors * l.bits ≤ 8 ∨ 8 ∣ l.colors * l.bits := by
  unfold Layout.distance
  omega

theorem Layout.distance_le_pixel (l : Layout) (hpixel : 0 < l.colors * l.bits) :
    l.distance ≤ (l.colors * l.bits + 7) / 8 := by
  unfold Layout.distance
  omega

/-- A row with a 1 in the first place and in every `distance`th one after it. -/
def stripes (distance length : Nat) : Bytes :=
  (List.range length).map fun i => if distance ∣ i then 1 else 0

@[simp] theorem length_stripes (distance length : Nat) :
    (stripes distance length).length = length := by
  simp [stripes]

theorem getD_stripes (distance : Nat) {length i : Nat} (hi : i < length) :
    (stripes distance length).getD i 0 = if distance ∣ i then 1 else 0 := by
  simp [stripes, hi]

/-- The differences of the stripes do not tell how far apart these are. -/
theorem differences_stripes {distance : Nat} (hdistance : 0 < distance) (above : Bytes)
    (length : Nat) : differences (fun left _ _ => left) distance above (stripes distance length) =
      (List.range length).map fun i => if i = 0 then 1 else 0 := by
  apply List.ext_getElem
  · simp
  · intro i hi _
    rw [length_differences, length_stripes] at hi
    simp only [differences, List.getElem_map, List.getElem_range, earlier, getD_stripes _ hi]
    rcases Nat.lt_or_ge i distance with hfirst | hlater
    · have hdvd : distance ∣ i ↔ i = 0 := by
        constructor
        · intro h
          exact Nat.eq_zero_of_dvd_of_lt h hfirst
        · rintro rfl
          exact Nat.dvd_zero _
      simp [hfirst, hdvd]
    · have hdvd : distance ∣ i - distance ↔ distance ∣ i :=
        Nat.dvd_sub_iff_left hlater (Nat.dvd_refl distance)
      rw [if_neg (Nat.not_lt.2 hlater), getD_stripes _ (by omega)]
      simp [hdvd, show i ≠ 0 by omega]

section
variable {l : Layout} {rows : List (PngFilter × Bytes)} {blocks : List Bytes}

/-- Rows that were filtered at the distance of the layout are restored. -/
theorem output?_filterRows (hpng : l.scheme = .png)
    (hrows : ∀ row ∈ rows, row.2.length = l.rowBytes)
    (hblocks : blocks.flatten = filterRows l.distance (List.replicate l.rowBytes 0) rows) :
    ((Step.run push (ofLayout l) blocks).andThen finish).output? =
      some (rows.map Prod.snd).flatten := by
  have habove : (ofLayout l).above = (List.replicate l.rowBytes 0).toArray := by
    simp [ofLayout]
  obtain ⟨q, hrun⟩ := run_filterRows (p := ofLayout l) hpng rfl habove hrows
  have hall := hrun.andThen (f := finish) (Step.yields_quiet _)
  rw [List.append_nil] at hall
  rw [run_push, hblocks]
  exact hall.output?

/-- Stripes that were filtered at one distance come out at the distance of the layout. -/
theorem output?_filterRows_stripes (hpng : l.scheme = .png) {distance : Nat}
    (hdistance : 0 < distance)
    (hblocks : blocks.flatten = filterRows distance (List.replicate l.rowBytes 0)
      [(.sub, stripes distance l.rowBytes)]) :
    ((Step.run push (ofLayout l) blocks).andThen finish).output? =
      some (stripes l.distance l.rowBytes) := by
  have hsame : filterRows distance (List.replicate l.rowBytes 0)
      [(.sub, stripes distance l.rowBytes)] =
      filterRows l.distance (List.replicate l.rowBytes 0)
        [(.sub, stripes l.distance l.rowBytes)] := by
    simp [filterRows, filterRow, PngFilter.predict, differences_stripes, hdistance, l.distance_pos]
  have hrestored := output?_filterRows (l := l) hpng (by simp) (hblocks.trans hsame)
  simpa using hrestored

/-- The distance at which all rows are restored is that of the layout. -/
theorem Layout.restores_iff (hpng : l.scheme = .png) {distance : Nat} (hle : l.distance ≤ distance)
    (hrow : distance ≤ l.rowBytes) :
    (∀ (rows : List (PngFilter × Bytes)) (blocks : List Bytes),
      (∀ row ∈ rows, row.2.length = l.rowBytes) →
      blocks.flatten = filterRows distance (List.replicate l.rowBytes 0) rows →
        ((Step.run push (ofLayout l) blocks).andThen finish).output? =
          some (rows.map Prod.snd).flatten) ↔ l.distance = distance := by
  constructor
  · intro hrestores
    by_contra hne
    have hpos := l.distance_pos
    have hless : l.distance < distance := by omega
    have hfiltered := hrestores [(.sub, stripes distance l.rowBytes)]
      [filterRows distance (List.replicate l.rowBytes 0) [(.sub, stripes distance l.rowBytes)]]
      (by simp) (by simp)
    rw [output?_filterRows_stripes hpng (show 0 < distance by omega) (by simp)] at hfiltered
    have hrows : stripes l.distance l.rowBytes = stripes distance l.rowBytes := by
      simpa using hfiltered
    -- the place where the layout sees a left neighbour and the row has none
    have hplace : (stripes l.distance l.rowBytes).getD l.distance 0 =
        (stripes distance l.rowBytes).getD l.distance 0 := by
      rw [hrows]
    have hin : l.distance < l.rowBytes := Nat.lt_of_lt_of_le hless hrow
    have hnot : ¬distance ∣ l.distance := Nat.not_dvd_of_pos_of_lt hpos hless
    rw [getD_stripes _ hin, getD_stripes _ hin, if_pos (Nat.dvd_refl _), if_neg hnot] at hplace
    exact absurd hplace (by decide)
  · rintro rfl rows blocks hrows hblocks
    exact output?_filterRows hpng hrows hblocks

end

section
variable {parms : Option DecodeParms} {predictor colors bits columns : Int}

/-- With a PNG predictor the distance of the neighbours is the length of a pixel, and rows filtered
at that distance are restored, for pixels that fit into a byte or end with one. For all others both
fail. -/
theorem restores_pixels_iff (h : Asks parms predictor colors bits columns)
    (hpossible : IsPossible predictor colors bits columns) (hpng : predictor ≠ 2) :
    ∃ p, ofParms parms = .ok (some p) ∧
      ((p.layout.distance : Int) = pixelLength colors bits ↔
        colors * bits ≤ 8 ∨ 8 ∣ colors * bits) ∧
      ((∀ (rows : List (PngFilter × Bytes)) (blocks : List Bytes),
        (∀ row ∈ rows, (row.2.length : Int) = rowLength colors bits columns) →
        blocks.flatten = filterRows (pixelLength colors bits).toNat
          (List.replicate (rowLength colors bits columns).toNat 0) rows →
          ((Step.run push p blocks).andThen finish).output? =
            some (rows.map Prod.snd).flatten) ↔
        colors * bits ≤ 8 ∨ 8 ∣ colors * bits) := by
  obtain ⟨l, hmade, htiff, rfl, rfl, hlength, -, -, -⟩ := ofParms_of_possible h hpossible
  have hscheme : l.scheme = .png := by
    cases hscheme : l.scheme with
    | tiff => exact absurd (htiff.1 hscheme) hpng
    | png => rfl
  have hcolumns := hpossible.row
  lift columns to Nat using by omega
  have hpixel : 0 < l.colors * l.bits := by
    have hcolors : 0 < l.colors := by exact_mod_cast hpossible.pixel
    have hbits := sample_natCast.1.1 hpossible.sample
    exact Nat.mul_pos hcolors (Nat.pos_of_ne_zero fun hzero => by simp [hzero] at hbits)
  have hwhole : ((l.colors : Int) * l.bits ≤ 8 ∨ (8 : Int) ∣ l.colors * l.bits) ↔
      l.colors * l.bits ≤ 8 ∨ 8 ∣ l.colors * l.bits := by
    norm_cast
  have hrow : (l.colors * l.bits + 7) / 8 ≤ l.rowBytes := by
    rw [rowLength_eq] at hlength
    rw [Int.ofNat_inj.1 hlength]
    have hall : l.colors * l.bits ≤ l.colors * l.bits * columns :=
      Nat.le_mul_of_pos_right _ (by omega)
    omega
  refine ⟨ofLayout l, hmade, ?_, ?_⟩
  · rw [hwhole, ← l.distance_eq_iff hpixel, pixelLength_eq]
    exact Int.ofNat_inj
  · rw [hwhole, ← l.distance_eq_iff hpixel, pixelLength_eq, ← hlength]
    simp only [Int.toNat_natCast, Int.ofNat_inj]
    exact l.restores_iff hscheme (l.distance_le_pixel hpixel) hrow

/-- Three colors of a byte each. -/
def wholeBytes : DecodeParms :=
  .ofList [("Predictor", .int 15), ("Colors", .int 3), ("BitsPerComponent", .int 8),
    ("Columns", .int 2)]

theorem restores_wholeBytes :
    Asks (some wholeBytes) 15 3 8 2 ∧ IsPossible 15 3 8 2 ∧
      ∃ p, ofParms (some wholeBytes) = .ok (some p) ∧
        (p.layout.distance : Int) = pixelLength 3 8 ∧
        ∀ (rows : List (PngFilter × Bytes)) (blocks : List Bytes),
          (∀ row ∈ rows, (row.2.length : Int) = rowLength 3 8 2) →
          blocks.flatten = filterRows (pixelLength 3 8).toNat
            (List.replicate (rowLength 3 8 2).toNat 0) rows →
            ((Step.run push p blocks).andThen finish).output? =
              some (rows.map Prod.snd).flatten := by
  have hasks : Asks (some wholeBytes) 15 3 8 2 := ⟨.int rfl, .int rfl, .int rfl, .int rfl⟩
  have hpossible : IsPossible 15 3 8 2 := by
    refine ⟨by decide, by decide, by decide, by decide, by decide, ?_⟩
    exact (rowLength_eq 3 8 2).trans_le (by decide)
  obtain ⟨p, hmade, hdistance, hrestores⟩ := restores_pixels_iff hasks hpossible (by decide)
  exact ⟨hasks, hpossible, p, hmade, hdistance.2 (by decide), hrestores.2 (by decide)⟩

/-- Pixels of 12 bits. -/
def partlyUsed : DecodeParms :=
  .ofList [("Predictor", .int 11), ("Colors", .int 3), ("BitsPerComponent", .int 4),
    ("Columns", .int 2)]

theorem restores_partlyUsed :
    Asks (some partlyUsed) 11 3 4 2 ∧ pixelLength 3 4 = 2 ∧ rowLength 3 4 2 = 3 ∧
      filterRows 2 (List.replicate 3 0) [(.sub, [1, 2, 3])] = [1, 1, 2, 2] ∧
      ∃ p, ofParms (some partlyUsed) = .ok (some p) ∧ p.layout.distance = 1 ∧
        ((Step.run push p [[1, 1, 2, 2]]).andThen finish).output? = some [1, 3, 5] := by
  refine ⟨⟨.int rfl, .int rfl, .int rfl, .int rfl⟩, ?_, ?_, by decide, ?_⟩
  · exact pixelLength_eq 3 4
  · exact rowLength_eq 3 4 2
  · exact ⟨ofLayout ⟨.png, 4, 3, 3⟩, by decide, by decide, by decide⟩

end

end PdfStream.Predictor
