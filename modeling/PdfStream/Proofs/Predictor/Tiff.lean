import Mathlib.Data.Fin.VecNotation
import Mathlib.Data.List.OfFn
import Mathlib.Tactic.Ring
import PdfStream.Proofs.Predictor.Assembly

/-!
TIFF differencing, told from the side that writes: in each row the first pixel stays and every later
one goes out as its difference to the pixel before, sample by sample and modulo the range of a
sample. The predictor undoes it.
-/
namespace PdfStream.Predictor

/-- One sample for each colour. -/
abbrev Pixel (colors bits : Nat) := Fin colors → BitVec bits

variable {colors bits : Nat}

/-- The samples of a row of pixels, one after the other. -/
def samples (row : List (Pixel colors bits)) : List (BitVec bits) := row.flatMap List.ofFn

/-- Samples of whole bytes, high byte first. -/
def sampleBytes (samples : List (BitVec bits)) : Bytes :=
  samples.flatMap fun s => Bytes.ofNat (bits / 8) s.toNat

def rowBytes (row : List (Pixel colors bits)) : Bytes := sampleBytes (samples row)

/-- The first pixel, and then each later one less the pixel before it. -/
def differenced : List (Pixel colors bits) → List (Pixel colors bits)
  | [] => []
  | first :: rest =>
    first :: List.zipWith (fun later earlier i => later i - earlier i) rest (first :: rest)

/-- Each sample less the one `lag` places before it; zeros stand before the first. -/
def lagDifferences (lag : Nat) (samples : List (BitVec bits)) : List (BitVec bits) :=
  List.zipWith (fun s earlier => s - earlier) samples (List.replicate lag 0 ++ samples)

theorem length_samples (row : List (Pixel colors bits)) :
    (samples row).length = row.length * colors := by
  induction row with
  | nil => rw [samples, List.flatMap_nil, List.length_nil, List.length_nil, Nat.zero_mul]
  | cons pixel row ih =>
    rw [samples, List.flatMap_cons, List.length_append, List.length_ofFn, ← samples, ih,
      List.length_cons, Nat.succ_mul, Nat.add_comm]

theorem length_sampleBytes (s : List (BitVec bits)) :
    (sampleBytes s).length = s.length * (bits / 8) := by
  induction s with
  | nil => rw [sampleBytes, List.flatMap_nil, List.length_nil, List.length_nil, Nat.zero_mul]
  | cons sample s ih =>
    rw [sampleBytes, List.flatMap_cons, List.length_append, Bytes.length_ofNat, ← sampleBytes, ih,
      List.length_cons, Nat.succ_mul, Nat.add_comm]

/-- By induction on both rows. Pixels of a row have equally many samples. -/
theorem samples_zipWith (later earlier : List (Pixel colors bits)) :
    samples (List.zipWith (fun p q i => p i - q i) later earlier) =
      List.zipWith (fun s t => s - t) (samples later) (samples earlier) := by
  induction later generalizing earlier with
  | nil => rfl
  | cons p later ih =>
    cases earlier with
    | nil => rw [List.zipWith_nil_right]; exact List.zipWith_nil_right.symm
    | cons q earlier =>
      have hpixel : List.ofFn (fun i => p i - q i) =
          List.zipWith (fun s t => s - t) (List.ofFn p) (List.ofFn q) := by
        apply List.ext_getElem
        · simp
        · intro i hi hi'
          simp
      have hlength : (List.ofFn p).length = (List.ofFn q).length := by
        rw [List.length_ofFn, List.length_ofFn]
      have htail := ih earlier
      simp only [samples] at htail ⊢
      rw [List.zipWith_cons_cons, List.flatMap_cons, List.flatMap_cons, List.flatMap_cons,
        List.zipWith_append hlength, hpixel, htail]

/-- In terms of samples, the pixel before lies as many places back as there are colours. -/
theorem samples_differenced (row : List (Pixel colors bits)) :
    samples (differenced row) = lagDifferences colors (samples row) := by
  have hzero : differenced row =
      List.zipWith (fun p q i => p i - q i) row ((fun _ => 0) :: row) := by
    cases row with
    | nil => rfl
    | cons first rest =>
      have hfirst : first = fun i => first i - 0 := funext fun i => (BitVec.sub_zero (first i)).symm
      rw [differenced, List.zipWith_cons_cons, ← hfirst]
  have hstart : samples ((fun _ => 0) :: row) =
      List.replicate colors (0 : BitVec bits) ++ samples row := by
    rw [samples, List.flatMap_cons, List.ofFn_const]
    rfl
  rw [hzero, samples_zipWith, hstart, lagDifferences]

section
variable {lag : Nat}

@[simp] theorem length_lagDifferences (s : List (BitVec bits)) :
    (lagDifferences lag s).length = s.length := by
  rw [lagDifferences, List.length_zipWith, List.length_append]
  omega

/-- The sample that a difference is taken to. -/
def earlierSample (lag : Nat) (s : List (BitVec bits)) (k : Nat) : BitVec bits :=
  if k < lag then 0 else s.getD (k - lag) 0

theorem getElem_lagDifferences {s : List (BitVec bits)} {k : Nat}
    {hplace : k < (lagDifferences lag s).length} (hk : k < s.length) :
    (lagDifferences lag s)[k] = s[k] - earlierSample lag s k := by
  simp only [lagDifferences, List.getElem_zipWith, earlierSample]
  congr 1
  split_ifs with hlag
  · rw [List.getElem_append_left (by rwa [List.length_replicate]), List.getElem_replicate]
  · have hback : k - lag < s.length := by omega
    rw [List.getElem_append_right (by rw [List.length_replicate]; omega)]
    simp only [List.length_replicate, List.getD_eq_getElem _ _ hback]

end

def byte (s : BitVec 8) : UInt8 := UInt8.ofNat s.toNat

theorem sampleBytes_eq_map (s : List (BitVec 8)) : sampleBytes s = s.map byte :=
  List.map_eq_flatMap.symm

theorem byte_sub (s t : BitVec 8) : byte (s - t) = byte s - byte t := by
  have hs := s.isLt
  have ht := t.isLt
  apply UInt8.toNat_inj.1
  rw [UInt8.toNat_sub, byte, byte, byte, UInt8.toNat_ofNat', UInt8.toNat_ofNat',
    UInt8.toNat_ofNat', BitVec.toNat_sub]
  omega

theorem earlier_map_byte (lag : Nat) (s : List (BitVec 8)) (k : Nat) :
    earlier lag (s.map byte) k = byte (earlierSample lag s k) := by
  rw [earlier, earlierSample]
  split_ifs with hlag
  · rfl
  · exact List.getD_map s 0 byte

theorem restoreBytes_sampleBytes {lag : Nat} (hlag : 0 < lag) (above : Bytes)
    (s : List (BitVec 8)) :
    restoreBytes (fun left _ _ => left) lag above.toArray
        (sampleBytes (lagDifferences lag s)).toArray = (sampleBytes s).toArray := by
  have hdifferences : (lagDifferences lag s).map byte =
      differences (fun left _ _ => left) lag above (s.map byte) := by
    apply List.ext_getElem
    · simp
    · intro k hk hk'
      have hplace : k < s.length := by simpa using hk
      have hplace' : k < (s.map byte).length := by simpa using hplace
      rw [List.getElem_map, getElem_lagDifferences hplace, byte_sub, ← earlier_map_byte]
      simp only [differences, List.getElem_map, List.getElem_range,
        List.getD_eq_getElem _ _ hplace']
  rw [sampleBytes_eq_map, sampleBytes_eq_map, hdifferences]
  exact restoreBytes_differences hlag above _

theorem sampleBytes_cons (first : BitVec 16) (s : List (BitVec 16)) : sampleBytes (first :: s) =
    UInt8.ofNat (first.toNat / 256) :: UInt8.ofNat first.toNat :: sampleBytes s := rfl

theorem sample_cons_cons (high low : UInt8) (row : Bytes) (k : Nat) :
    sample (high :: low :: row).toArray (k + 2) = sample row.toArray k := by
  simp only [sample, getD_toArray, List.getD_cons_succ]

theorem sample_sampleBytes {s : List (BitVec 16)} {k : Nat} (hk : k < s.length) :
    sample (sampleBytes s).toArray (2 * k) = s[k].toNat := by
  induction s generalizing k with
  | nil => exact absurd hk (Nat.not_lt_zero k)
  | cons first s ih =>
    rw [sampleBytes_cons]
    cases k with
    | zero =>
      have hfirst := first.isLt
      simp only [sample, getD_toArray, Nat.mul_zero, List.getD_cons_zero, Nat.zero_add,
        List.getD_cons_succ, UInt8.toNat_ofNat', List.getElem_cons_zero]
      omega
    | succ k =>
      rw [Nat.mul_succ, sample_cons_cons, ih (Nat.lt_of_succ_lt_succ hk),
        List.getElem_cons_succ]

theorem sampleBytes_append (s t : List (BitVec bits)) :
    sampleBytes (s ++ t) = sampleBytes s ++ sampleBytes t := List.flatMap_append

theorem sampleBytes_take_succ {s : List (BitVec 16)} {n : Nat} (hn : n < s.length) :
    sampleBytes (s.take (n + 1)) = sampleBytes (s.take n) ++
      [UInt8.ofNat (s[n].toNat / 256), UInt8.ofNat s[n].toNat] := by
  rw [← List.take_append_getElem hn, sampleBytes_append]
  rfl

/-- The earlier sample is among those that are already there. -/
theorem sample_take {lag n : Nat} {s : List (BitVec 16)} (hlag : 0 < lag) (hn : n < s.length) :
    (if lag ≤ n then sample (sampleBytes (s.take n)).toArray (2 * (n - lag)) else 0) =
      (earlierSample lag s n).toNat := by
  rw [earlierSample]
  rcases Nat.lt_or_ge n lag with hearly | hlate
  · rw [if_neg (Nat.not_le.2 hearly), if_pos hearly]
    rfl
  · have hplace : n - lag < (s.take n).length := by
      rw [List.length_take]
      omega
    rw [if_pos hlate, if_neg (Nat.not_lt.2 hlate), sample_sampleBytes hplace, List.getElem_take,
      List.getD_eq_getElem]

/-- A sum may be beyond the range of a sample; its two bytes do not show that. -/
theorem bytes_of_toNat_add (s t : BitVec 16) :
    UInt8.ofNat (((s - t).toNat + t.toNat) / 256) = UInt8.ofNat (s.toNat / 256) ∧
      UInt8.ofNat ((s - t).toNat + t.toNat) = UInt8.ofNat s.toNat := by
  have hsum : ((s - t).toNat + t.toNat) % 65536 = s.toNat := by
    rw [← BitVec.toNat_add, BitVec.sub_add_cancel]
  generalize (s - t).toNat + t.toNat = sum at *
  constructor
  · apply UInt8.toNat_inj.1
    rw [UInt8.toNat_ofNat', UInt8.toNat_ofNat', ← hsum]
    omega
  · apply UInt8.toNat_inj.1
    rw [UInt8.toNat_ofNat', UInt8.toNat_ofNat', ← hsum]
    omega

/-- By induction on the number of samples that are restored: they are those of the row so far. -/
theorem restoreWords_sampleBytes {lag : Nat} (hlag : 0 < lag) (s : List (BitVec 16)) :
    restoreWords lag (sampleBytes (lagDifferences lag s)).toArray = (sampleBytes s).toArray := by
  have hprefix : ∀ n ≤ s.length,
      Nat.fold n (fun k _ done =>
        let left := if lag ≤ k then sample done (2 * (k - lag)) else 0
        let sum := sample (sampleBytes (lagDifferences lag s)).toArray (2 * k) + left
        (done.push (UInt8.ofNat (sum / 256))).push (UInt8.ofNat sum)) #[] =
      (sampleBytes (s.take n)).toArray := by
    intro n
    induction n with
    | zero => exact fun _ => rfl
    | succ n ih =>
      intro hn
      have hdifference : sample (sampleBytes (lagDifferences lag s)).toArray (2 * n) =
          (s[n] - earlierSample lag s n).toNat := by
        rw [sample_sampleBytes (by rwa [length_lagDifferences]), getElem_lagDifferences hn]
      obtain ⟨hhigh, hlow⟩ := bytes_of_toNat_add s[n] (earlierSample lag s n)
      rw [Nat.fold_succ, ih (Nat.le_of_succ_le hn)]
      dsimp only
      rw [sample_take hlag hn, hdifference, hhigh, hlow, sampleBytes_take_succ hn,
        List.push_toArray, List.push_toArray, List.append_assoc]
      rfl
  have hsize : (sampleBytes (lagDifferences lag s)).toArray.size / 2 = s.length := by
    rw [List.size_toArray, length_sampleBytes, length_lagDifferences]
    omega
  rw [restoreWords, hsize, hprefix _ (Nat.le_refl _), List.take_length]

section
variable {l : Layout}

theorem rowBytes_length (row : List (Pixel colors bits)) :
    (rowBytes row).length = row.length * colors * (bits / 8) := by
  rw [rowBytes, length_sampleBytes, length_samples]

@[simp] theorem length_differenced (row : List (Pixel colors bits)) :
    (differenced row).length = row.length := by
  cases row with
  | nil => rfl
  | cons first rest => simp [differenced]

theorem accepts_of_tiff (h : l.scheme = .tiff) (row : Bytes) : l.Accepts row := by
  intro hpng
  rw [h] at hpng
  cases hpng

/-- A row of differences is restored under any row above it. -/
theorem restoreRow_differenced (htiff : l.scheme = .tiff) (hbits : l.bits = 8 ∨ l.bits = 16)
    (hcolors : 0 < l.colors) (above : Bytes) (row : List (Pixel l.colors l.bits)) :
    restoreRow l above (rowBytes (differenced row)) = rowBytes row := by
  obtain ⟨scheme, bits, colors, size⟩ := l
  cases htiff
  have hsamples : rowBytes (differenced row) =
      sampleBytes (lagDifferences colors (samples row)) := by
    rw [rowBytes, samples_differenced]
  rw [restoreRow, hsamples, restore]
  rcases hbits with hbits | hbits
  · cases hbits
    simp only [↓reduceIte, restoreBytes_sampleBytes hcolors]
    rfl
  · cases hbits
    simp only [show (16 : Nat) ≠ 8 by decide, ↓reduceIte, restoreWords_sampleBytes hcolors]
    rfl

/-- By induction on the rows. -/
theorem outputRows_differenced (htiff : l.scheme = .tiff) (hbits : l.bits = 8 ∨ l.bits = 16)
    (hcolors : 0 < l.colors) (above : Bytes) (rows : List (List (Pixel l.colors l.bits))) :
    outputRows l above (rows.map fun row => rowBytes (differenced row)) =
      rows.map rowBytes := by
  induction rows generalizing above with
  | nil => rfl
  | cons row rows ih =>
    rw [List.map_cons, List.map_cons, outputRows,
      restoreRow_differenced htiff hbits hcolors above row, ih]

end

section
variable {parms : DecodeParms} {columns : Nat}

theorem positive_of_intD {key : String} {default : Int} {n : Nat}
    (h : parms.intD key default = .ok (n : Int)) (hn : 1 ≤ n) :
    positive parms key default = .ok n := by
  have hpos : (0 : Int) < n := by omega
  simp only [positive, h, bind, Except.bind, if_pos hpos, pure, Except.pure, Int.toNat_natCast]

/-- TIFF rows of samples that fill whole bytes. -/
def Layout.tiff (colors bits columns : Nat) : Layout :=
  ⟨.tiff, bits, colors, columns * colors * (bits / 8)⟩

/-- Within the limit of a row, such rows get a predictor. -/
theorem ofParms_tiff (hpredictor : parms.intD "Predictor" 1 = .ok 2)
    (hcolors : parms.intD "Colors" 1 = .ok (colors : Int))
    (hbits : parms.intD "BitsPerComponent" 8 = .ok (bits : Int))
    (hcolumns : parms.intD "Columns" 1 = .ok (columns : Int)) (hcolors_pos : 1 ≤ colors)
    (hcolumns_pos : 1 ≤ columns) (hdepth : bits = 8 ∨ bits = 16)
    (hlimit : columns * colors * (bits / 8) ≤ maxRowBytes) :
    ofParms (some parms) = .ok (some (ofLayout (.tiff colors bits columns))) := by
  have hmax : maxRowBytes = 2 ^ 24 := rfl
  have hproduct : colors * bits * columns = columns * colors * (bits / 8) * 8 := by
    rcases hdepth with rfl | rfl <;> ring
  have hfactor : colors * bits ≤ colors * bits * columns := Nat.le_mul_of_pos_right _ hcolumns_pos
  have hbits_pos : 1 ≤ bits := by omega
  have hcreate : Layout.create .tiff colors bits columns = .ok (.tiff colors bits columns) := by
    have hknown : ¬bits ∉ [1, 2, 4, 8, 16] := by
      rcases hdepth with rfl | rfl <;> decide
    have hwhole : ¬(Scheme.tiff = .tiff ∧ bits ∉ [8, 16]) := by
      rcases hdepth with rfl | rfl <;> decide
    have hsmall : ¬(1 <<< 64 ≤ colors * bits ∨ 1 <<< 64 ≤ colors * bits * columns) := by
      rw [show 1 <<< 64 = 2 ^ 64 from rfl]
      omega
    have hround : (colors * bits * columns + 7) / 8 = columns * colors * (bits / 8) := by omega
    rw [Layout.create, if_neg hknown, if_neg hwhole, if_neg hsmall]
    dsimp only
    rw [hround, if_neg (Nat.not_lt.2 hlimit)]
    rfl
  have hlayout : layout? (some parms) = .ok (some (.tiff colors bits columns)) := by
    have hone : ¬(2 : Int) = 1 := by decide
    simp only [layout?, hpredictor, positive_of_intD hcolors hcolors_pos,
      positive_of_intD hbits hbits_pos, positive_of_intD hcolumns hcolumns_pos, hcreate, bind,
      Except.bind, pure, Except.pure, if_neg hone, ↓reduceIte]
  rw [ofParms, hlayout]
  rfl

/-- Parameters that ask for TIFF prediction of whole-byte samples, within the limit of a row, get a
predictor that turns differenced rows back into the rows they were taken of, whatever the pieces in
which they come. -/
theorem push_differenced (hpredictor : parms.intD "Predictor" 1 = .ok 2)
    (hcolors : parms.intD "Colors" 1 = .ok (colors : Int))
    (hbits : parms.intD "BitsPerComponent" 8 = .ok (bits : Int))
    (hcolumns : parms.intD "Columns" 1 = .ok (columns : Int)) (hcolors_pos : 1 ≤ colors)
    (hcolumns_pos : 1 ≤ columns) (hdepth : bits = 8 ∨ bits = 16)
    (hlimit : columns * colors * (bits / 8) ≤ maxRowBytes) :
    ∃ p, ofParms (some parms) = .ok (some p) ∧
      ∀ rows : List (List (Pixel colors bits)), (∀ row ∈ rows, row.length = columns) →
      ∀ blocks : List Bytes,
        blocks.flatten = rows.flatMap (fun row => rowBytes (differenced row)) →
        ((Step.run push p blocks).andThen finish).output? = some (rows.flatMap rowBytes) := by
  refine ⟨_, ofParms_tiff hpredictor hcolors hbits hcolumns hcolors_pos hcolumns_pos hdepth hlimit,
    ?_⟩
  intro rows hrows blocks hblocks
  have hpos : 0 < (Layout.tiff colors bits columns).rowSize :=
    Nat.mul_pos (Nat.mul_pos hcolumns_pos hcolors_pos) (by omega)
  have hchunks : ∀ chunk ∈ rows.map (fun row => rowBytes (differenced row)),
      chunk.length = (Layout.tiff colors bits columns).rowSize ∧
        (Layout.tiff colors bits columns).Accepts chunk := by
    intro chunk hchunk
    obtain ⟨row, hrow, rfl⟩ := List.mem_map.1 hchunk
    refine ⟨?_, accepts_of_tiff rfl _⟩
    rw [rowBytes_length, length_differenced, hrows row hrow]
    rfl
  obtain ⟨q, last, hrun, -⟩ := run_addByte_rows hpos (between_ofLayout _) hchunks
  have hout : outputRows (.tiff colors bits columns)
      (List.replicate (Layout.tiff colors bits columns).rowBytes 0)
      (rows.map fun row => rowBytes (differenced row)) = rows.map rowBytes :=
    outputRows_differenced (l := .tiff colors bits columns) rfl hdepth hcolors_pos _ rows
  rw [hout] at hrun
  have hfinish : q.finish.Yields { q with pending := #[] } [] := Step.yields_quiet _
  have hall := hrun.andThen hfinish
  rw [run_push, hblocks, List.flatMap_def, hall.output?, List.append_nil, List.flatMap_def]

end

/-- Two colours of 16 bits, with differences that wrap, in two pieces. -/
theorem push_differenced_words :
    ∃ parms : DecodeParms, parms.intD "Predictor" 1 = .ok 2 ∧
      parms.intD "Colors" 1 = .ok (2 : Nat) ∧ parms.intD "BitsPerComponent" 8 = .ok (16 : Nat) ∧
      parms.intD "Columns" 1 = .ok (2 : Nat) ∧ 2 * 2 * (16 / 8) ≤ maxRowBytes ∧
      ∃ p, ofParms (some parms) = .ok (some p) ∧
        ((Step.run push p [[0x01, 0xFF, 0x00], [0x05, 0xFE, 0x02, 0xFF, 0xFA]]).andThen
          finish).output? = some [0x01, 0xFF, 0x00, 0x05, 0x00, 0x01, 0xFF, 0xFF] := by
  obtain ⟨parms, hparms⟩ : ∃ parms, parms = DecodeParms.ofList [("Predictor", .int 2),
    ("Colors", .int 2), ("BitsPerComponent", .int 16), ("Columns", .int 2)] := ⟨_, rfl⟩
  have hpredictor : parms.intD "Predictor" 1 = .ok 2 := by rw [hparms]; rfl
  have hcolors : parms.intD "Colors" 1 = .ok (2 : Nat) := by rw [hparms]; rfl
  have hbits : parms.intD "BitsPerComponent" 8 = .ok (16 : Nat) := by rw [hparms]; rfl
  have hcolumns : parms.intD "Columns" 1 = .ok (2 : Nat) := by rw [hparms]; rfl
  have hlimit : 2 * 2 * (16 / 8) ≤ maxRowBytes := by decide
  refine ⟨parms, hpredictor, hcolors, hbits, hcolumns, hlimit, ?_⟩
  obtain ⟨p, hmade, hrestored⟩ := push_differenced hpredictor hcolors hbits hcolumns (by decide)
    (by decide) (.inr rfl) hlimit
  refine ⟨p, hmade, ?_⟩
  have hrows : ∀ row ∈ ([[![0x01FF, 5], ![1, 0xFFFF]]] : List (List (Pixel 2 16))),
      row.length = 2 := by
    rintro _ (_ | ⟨_, ⟨⟩⟩)
    rfl
  exact hrestored [[![0x01FF, 5], ![1, 0xFFFF]]] hrows
    [[0x01, 0xFF, 0x00], [0x05, 0xFE, 0x02, 0xFF, 0xFA]] (by decide)

end PdfStream.Predictor
