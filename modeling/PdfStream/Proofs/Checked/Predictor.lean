import PdfStream.Proofs.Checked.Step
import PdfStream.Proofs.Predictor

/-!
The checked steps of the predictors. Rows are restored in place: a PNG row in the scratch row, a
TIFF row where it came in. That comes to the same as a restored row that grows byte by byte, because
a place that is read has either been restored or not been reached.
-/
namespace PdfStream
namespace Checked
variable {β γ : Type}

/-- Goes through the indices below `count`. -/
def loop (f : Nat → β → Option β) : (count : Nat) → β → Option β
  | 0, b => some b
  | count + 1, b => loop f count b >>= f count

/-- A row into one of the same length. -/
def copy (into row : Array UInt8) : Option (Array UInt8) :=
  if row.size = into.size then some row else none

theorem copy_eq {into row : Array UInt8} (h : row.size = into.size) : copy into row = some row :=
  if_pos h

/-- By induction on the count. -/
theorem loop_fold {f : Nat → β → Option β} {g : Nat → γ → γ} {R : Nat → β → γ → Prop} {count : Nat}
    (hstep : ∀ i b c, i < count → R i b c → ∃ b', f i b = some b' ∧ R (i + 1) b' (g i c)) {b : β}
    {c : γ} (h : R 0 b c) :
    ∃ b', loop f count b = some b' ∧ R count b' (Nat.fold count (fun i _ c => g i c) c) := by
  induction count with
  | zero => exact ⟨b, rfl, h⟩
  | succ count ih =>
    obtain ⟨b', hloop, hrel⟩ := ih fun i b c hi => hstep i b c (Nat.lt_succ_of_lt hi)
    obtain ⟨b'', hlast, hnext⟩ := hstep count b' _ (Nat.lt_succ_self count) hrel
    refine ⟨b'', ?_, ?_⟩
    · rw [loop, hloop]
      exact hlast
    · rwa [Nat.fold_succ]

end Checked

namespace Predictor

/-- `row` was `old` before its first `i` bytes became those of `done`. -/
structure Overwrites (old : Array UInt8) (i : Nat) (row done : Array UInt8) : Prop where
  size : row.size = old.size
  count : done.size = i
  done : ∀ j, j < i → row[j]? = done[j]?
  rest : ∀ j, i ≤ j → row[j]? = old[j]?

section
variable {old row done : Array UInt8} {i j : Nat} {b : UInt8}

theorem overwrites_start (old : Array UInt8) : Overwrites old 0 old #[] :=
  ⟨rfl, rfl, fun _ h => absurd h (Nat.not_lt_zero _), fun _ _ => rfl⟩

theorem Overwrites.getElem?_done (h : Overwrites old i row done) (hj : j < i) :
    row[j]? = some (done.getD j 0) := by
  have hplace : j < done.size := Nat.lt_of_lt_of_eq hj h.count.symm
  rw [h.done j hj, Array.getElem?_eq_getElem hplace, Array.getD_eq_getD_getElem?,
    Array.getElem?_eq_getElem hplace, Option.getD_some]

theorem Overwrites.getElem?_rest (h : Overwrites old i row done) (hj : i ≤ j)
    (hplace : j < old.size) : row[j]? = some (old.getD j 0) := by
  rw [h.rest j hj, Array.getElem?_eq_getElem hplace, Array.getD_eq_getD_getElem?,
    Array.getElem?_eq_getElem hplace, Option.getD_some]

/-- The next byte may stay as it is. -/
theorem Overwrites.skip (h : Overwrites old i row done) (hi : i < old.size) :
    Overwrites old (i + 1) row (done.push (old.getD i 0)) where
  size := h.size
  count := by rw [Array.size_push, h.count]
  done := by
    intro j hj
    rcases Nat.lt_succ_iff_lt_or_eq.1 hj with hlt | rfl
    · rw [h.done j hlt, Array.getElem?_push_lt (Nat.lt_of_lt_of_eq hlt h.count.symm),
        Array.getElem?_eq_getElem]
    · rw [h.getElem?_rest (Nat.le_refl j) hi, ← h.count, Array.getElem?_push_size]
  rest := fun j hj => h.rest j (Nat.le_of_succ_le hj)

theorem Overwrites.set (h : Overwrites old i row done) (hi : i < old.size) (b : UInt8) :
    ∃ row', Checked.set row i b = some row' ∧ Overwrites old (i + 1) row' (done.push b) := by
  have hplace : i < row.size := Nat.lt_of_lt_of_eq hi h.size.symm
  refine ⟨row.set i b hplace, Checked.set_eq hplace b, ?_⟩
  constructor
  · rw [Array.size_set, h.size]
  · rw [Array.size_push, h.count]
  · intro j hj
    rcases Nat.lt_succ_iff_lt_or_eq.1 hj with hlt | rfl
    · rw [Array.getElem?_set_ne hplace (Nat.ne_of_gt hlt), h.done j hlt,
        Array.getElem?_push_lt (Nat.lt_of_lt_of_eq hlt h.count.symm), Array.getElem?_eq_getElem]
    · rw [Array.getElem?_set_self hplace, ← h.count, Array.getElem?_push_size]
  · intro j hj
    rw [Array.getElem?_set_ne hplace (Nat.ne_of_lt hj), h.rest j (Nat.le_of_succ_le hj)]

/-- In the end nothing of the old row is left. -/
theorem Overwrites.eq (h : Overwrites old i row done) (hi : i = old.size) : row = done := by
  apply Array.ext_getElem?
  intro j
  by_cases hj : j < i
  · exact h.done j hj
  · have hrow : row.size ≤ j := by
      rw [h.size, ← hi]
      exact Nat.le_of_not_lt hj
    have hdone : done.size ≤ j := by
      rw [h.count]
      exact Nat.le_of_not_lt hj
    rw [Array.getElem?_eq_none hrow, Array.getElem?_eq_none hdone]

end

/-- The byte `distance` before index i, which must be in use; zero before the row. -/
def before? (distance : Nat) (row : Array UInt8) (i : Nat) : Option UInt8 :=
  if distance ≤ i then row[i - distance]? else some 0

/-- The filters with their narrowing checked. -/
def filter? (tag : UInt8) : Option (UInt8 → UInt8 → UInt8 → Option UInt8) :=
  if tag = 3 then some fun left above _ => Checked.byte ((left.toNat + above.toNat) / 2)
  else (predict? tag).map fun predict left above upperLeft => some (predict left above upperLeft)

def restoreByte? (predict : UInt8 → UInt8 → UInt8 → Option UInt8) (distance : Nat)
    (above row : Array UInt8) (i : Nat) (scratch : Array UInt8) : Option (Array UInt8) := do
  let difference ← row[i]?
  let predicted ← predict (← before? distance scratch i) (← above[i]?) (← before? distance above i)
  Checked.set scratch i (difference + predicted)

/-- The scratch row must be as long as the row that is restored in it. -/
def restoreInto? (predict : UInt8 → UInt8 → UInt8 → Option UInt8) (distance : Nat)
    (above row scratch : Array UInt8) : Option (Array UInt8) := do
  let _ ← Checked.copy scratch row
  Checked.loop (restoreByte? predict distance above row) row.size scratch

/-- Adds to a byte the restored one `colors` bytes before it. -/
def addLeft? (colors i : Nat) (row : Array UInt8) : Option (Array UInt8) :=
  if colors ≤ i then do
    Checked.set row i ((← row[i]?) + (← row[i - colors]?))
  else some row

/-- The 16-bit number at two adjacent bytes, which must be in use. -/
def sample? (row : Array UInt8) (i : Nat) : Option Nat := do
  return (← row[i]?).toNat * 256 + (← row[i + 1]?).toNat

/-- Adds to a 16-bit sample the restored one `colors` samples before it. -/
def addLeftWord? (colors k : Nat) (row : Array UInt8) : Option (Array UInt8) :=
  if colors ≤ k then do
    let sum := (← sample? row (2 * k)) + (← sample? row (2 * (k - colors)))
    Checked.set (← Checked.set row (2 * k) (UInt8.ofNat (sum / 256))) (2 * k + 1) (UInt8.ofNat sum)
  else some row

def restore? (p : Predictor) (row : Array UInt8) : Option (Except Error (Array UInt8)) :=
  match p.layout.scheme with
  | .png => do
    let tag ← row[0]?
    match filter? tag with
    | some predict =>
      (restoreInto? predict p.layout.distance p.above (row.extract 1 row.size) p.scratch).map .ok
    | none => return .error (.decode (.pngFilter tag))
  | .tiff => do
    let restored ←
      if p.layout.bits = 8 then Checked.loop (addLeft? p.layout.colors) row.size row
      else Checked.loop (addLeftWord? p.layout.colors) (row.size / 2) row
    (Checked.copy p.above restored).map .ok

/-- A row has room for as many bytes as it is short of. -/
def addByte? (p : Predictor) (b : UInt8) : Option (Step Predictor) := do
  let room ← Checked.sub p.layout.rowSize p.pending.size
  let pending := if 0 < room then p.pending.push b else p.pending
  if pending.size < p.layout.rowSize then return .quiet { p with pending }
  else
    match ← restore? p pending with
    | .ok row => return .write (p.accept row) row.toList
    | .error e => return .stop { p with pending } e

def push? (p : Predictor) (data : Bytes) : Option (Step Predictor) := Step.run? addByte? p data

/-- Hands a piece on that was cut from a buffer of `size` bytes. -/
def pass? (size : Nat) (p : Option Predictor) (piece : Bytes) : Option (Step (Option Predictor)) :=
  if piece.length ≤ size then
    match p with
    | none => some (.write none piece)
    | some p => (p.push? piece).map (Step.map some)
  else none

/-- Hands on piece after piece. If one fails, the pieces after it are left. -/
def passAll? (size : Nat) (out : Step (Option Predictor)) :
    List Bytes → Option (Step (Option Predictor) × List Bytes)
  | [] => some (out, [])
  | piece :: pieces =>
    out.andThen? (pass? size · piece) >>= fun out =>
      if out.fault.isSome then some (out, pieces) else passAll? size out pieces

/-- Rows are not empty, and hold whole samples if TIFF rows hold 16-bit ones. -/
structure Layout.IsSound (l : Layout) : Prop where
  pos : 0 < l.rowBytes
  colors : 0 < l.colors
  whole : l.scheme = .tiff → l.bits ≠ 8 → l.rowBytes % 2 = 0

/-- The row that comes in is not complete, and the two others are whole rows. -/
structure InBounds (p : Predictor) : Prop where
  pending : p.pending.size < p.layout.rowSize
  above : p.above.size = p.layout.rowBytes
  scratch : p.scratch.size = p.layout.rowBytes
  layout : p.layout.IsSound

theorem Layout.isSound_create {scheme : Scheme} {colors bits columns : Nat} {l : Layout}
    (h : create scheme colors bits columns = .ok l) (hcolors : 0 < colors) (hbits : 0 < bits)
    (hcolumns : 0 < columns) : l.IsSound := by
  unfold create at h
  dsimp only at h
  split_ifs at h with _ htiff
  cases h
  have hpos : 0 < colors * bits * columns := Nat.mul_pos (Nat.mul_pos hcolors hbits) hcolumns
  constructor
  · show 0 < (colors * bits * columns + 7) / 8
    omega
  · exact hcolors
  · intro hscheme hwide
    have hwords : bits = 16 := by
      by_contra hne
      refine htiff ⟨hscheme, ?_⟩
      simp [hne, show bits ≠ 8 from hwide]
    show (colors * bits * columns + 7) / 8 % 2 = 0
    rw [hwords, Nat.mul_right_comm]
    omega

theorem pos_of_positive {parms : DecodeParms} {key : String} {default : Int} {n : Nat}
    (h : positive parms key default = .ok n) : 0 < n := by
  unfold positive at h
  cases hvalue : parms.intD key default with
  | error e => simp [hvalue, bind, Except.bind] at h
  | ok value =>
    simp only [hvalue, bind, Except.bind] at h
    split_ifs at h with hpos
    cases h
    omega

theorem isSound_of_layout? {parms : Option DecodeParms} {l : Layout}
    (h : layout? parms = .ok (some l)) : l.IsSound := by
  unfold layout? at h
  cases parms with
  | none => cases h
  | some parms =>
    simp only [bind, Except.bind] at h
    split at h
    · cases h
    split_ifs at h
    · cases h
    all_goals
      simp only [pure, Except.pure] at h
      split at h
      · cases h
      next colors hcolors =>
        split at h
        · cases h
        next bits hbits =>
          split at h
          · cases h
          next columns hcolumns =>
            split at h
            · cases h
            next hmade =>
              cases h
              exact Layout.isSound_create hmade (pos_of_positive hcolors) (pos_of_positive hbits)
                (pos_of_positive hcolumns)

theorem inBounds_ofLayout {l : Layout} (h : l.IsSound) : (ofLayout l).InBounds where
  pending := by
    show 0 < l.rowSize
    unfold Layout.rowSize
    split
    · exact Nat.succ_pos _
    · exact h.pos
  above := Array.size_replicate
  scratch := Array.size_replicate
  layout := h

theorem layout?_of_ofParms {parms : Option DecodeParms} {p : Predictor}
    (h : ofParms parms = .ok (some p)) :
    ∃ l, layout? parms = .ok (some l) ∧ p = ofLayout l := by
  unfold ofParms at h
  cases hlayout : layout? parms with
  | error e =>
    rw [hlayout] at h
    cases h
  | ok l =>
    rw [hlayout] at h
    cases l with
    | none => cases h
    | some l =>
      cases h
      exact ⟨l, rfl, rfl⟩

theorem inBounds_ofParms {parms : Option DecodeParms} {p : Predictor}
    (h : ofParms parms = .ok (some p)) : p.InBounds := by
  obtain ⟨l, hlayout, rfl⟩ := layout?_of_ofParms h
  exact inBounds_ofLayout (isSound_of_layout? hlayout)

theorem filter?_of_predict? {tag : UInt8} :
    (predict? tag = none → filter? tag = none) ∧
      ∀ predict, predict? tag = some predict →
        ∃ predict', filter? tag = some predict' ∧
          ∀ left above upperLeft,
            predict' left above upperLeft = some (predict left above upperLeft) := by
  unfold filter?
  split
  next htag =>
    subst htag
    refine ⟨nofun, ?_⟩
    rintro _ ⟨⟩
    refine ⟨_, rfl, fun left above _ => ?_⟩
    have hleft := left.toNat_lt
    have habove := above.toNat_lt
    exact Checked.byte_eq (by omega)
  next =>
    refine ⟨fun hnone => by rw [hnone, Option.map_none], fun predict hpredict => ?_⟩
    exact ⟨_, by rw [hpredict, Option.map_some], fun _ _ _ => rfl⟩

theorem before?_eq {distance i : Nat} {row : Array UInt8} (hpos : 0 < distance)
    (h : i < row.size) : before? distance row i = some (before distance row i) := by
  unfold before? before
  split
  next hle =>
    have hplace : i - distance < row.size := by omega
    rw [Array.getElem?_eq_getElem hplace, Array.getD_eq_getD_getElem?,
      Array.getElem?_eq_getElem hplace, Option.getD_some]
  next => rfl

theorem Overwrites.before? {old row done : Array UInt8} {distance i : Nat}
    (h : Overwrites old i row done) (hpos : 0 < distance) :
    before? distance row i = some (before distance done i) := by
  unfold Predictor.before? before
  split
  next hle => exact h.getElem?_done (by omega)
  next => rfl

section
variable {predict : UInt8 → UInt8 → UInt8 → UInt8}
  {predict' : UInt8 → UInt8 → UInt8 → Option UInt8} {distance : Nat} {above row : Array UInt8}

theorem restoreByte?_spec (hpredict : ∀ left above upperLeft,
      predict' left above upperLeft = some (predict left above upperLeft)) (hpos : 0 < distance)
    (habove : above.size = row.size) {old scratch done : Array UInt8} (hold : old.size = row.size)
    {i : Nat} (hi : i < row.size) (h : Overwrites old i scratch done) :
    ∃ scratch', restoreByte? predict' distance above row i scratch = some scratch' ∧
      Overwrites old (i + 1) scratch' (done.push (row.getD i 0 +
        predict (before distance done i) (above.getD i 0) (before distance above i))) := by
  have hplace : i < above.size := Nat.lt_of_lt_of_eq hi habove.symm
  have hrow : row[i]? = some (row.getD i 0) :=
    (overwrites_start row).getElem?_rest (Nat.zero_le i) hi
  have hup : above[i]? = some (above.getD i 0) :=
    (overwrites_start above).getElem?_rest (Nat.zero_le i) hplace
  simp only [restoreByte?, hrow, hup, h.before? hpos, before?_eq hpos hplace, hpredict,
    Option.bind_eq_bind, Option.bind_some]
  exact h.set (Nat.lt_of_lt_of_eq hi hold.symm) _

theorem restoreInto?_spec (hpredict : ∀ left above upperLeft,
      predict' left above upperLeft = some (predict left above upperLeft)) (hpos : 0 < distance)
    (habove : above.size = row.size) {scratch : Array UInt8} (hscratch : row.size = scratch.size) :
    restoreInto? predict' distance above row scratch =
        some (restoreBytes predict distance above row) ∧
      (restoreBytes predict distance above row).size = row.size := by
  obtain ⟨row', hloop, hrel⟩ := Checked.loop_fold
    (fun i _ _ hi hrel => restoreByte?_spec hpredict hpos habove hscratch.symm hi hrel)
    (overwrites_start scratch)
  have hrestored : row' = restoreBytes predict distance above row := hrel.eq hscratch
  refine ⟨?_, hrel.count⟩
  rw [restoreInto?, Checked.copy_eq hscratch, ← hrestored]
  exact hloop

end

section
variable {row : Array UInt8}

theorem addLeft?_spec {colors i : Nat} (hpos : 0 < colors) {row' done : Array UInt8}
    (hi : i < row.size) (h : Overwrites row i row' done) :
    ∃ row'', addLeft? colors i row' = some row'' ∧
      Overwrites row (i + 1) row'' (done.push (row.getD i 0 + before colors done i)) := by
  by_cases hle : colors ≤ i
  · have hplace : i - colors < i := by omega
    rw [addLeft?, before, if_pos hle, if_pos hle, h.getElem?_rest (Nat.le_refl i) hi,
      h.getElem?_done hplace]
    exact h.set hi _
  · rw [addLeft?, before, if_neg hle, if_neg hle, UInt8.add_zero]
    exact ⟨row', rfl, h.skip hi⟩

end

theorem loop_addLeft? {colors : Nat} (hpos : 0 < colors) (above row : Array UInt8) :
    Checked.loop (addLeft? colors) row.size row =
        some (restoreBytes (fun left _ _ => left) colors above row) ∧
      (restoreBytes (fun left _ _ => left) colors above row).size = row.size := by
  obtain ⟨row', hloop, hrel⟩ := Checked.loop_fold
    (fun i _ _ hi hrel => addLeft?_spec hpos hi hrel) (overwrites_start row)
  have hrestored : row' = restoreBytes (fun left _ _ => left) colors above row := hrel.eq rfl
  refine ⟨?_, hrel.count⟩
  rw [hloop, hrestored]

theorem Overwrites.sample?_done {old row done : Array UInt8} {i j : Nat}
    (h : Overwrites old i row done) (hj : j + 1 < i) : sample? row j = some (sample done j) := by
  simp only [sample?, sample, h.getElem?_done hj, h.getElem?_done (Nat.lt_of_succ_lt hj)]
  rfl

theorem Overwrites.sample?_rest {old row done : Array UInt8} {i j : Nat}
    (h : Overwrites old i row done) (hj : i ≤ j) (hplace : j + 1 < old.size) :
    sample? row j = some (sample old j) := by
  simp only [sample?, sample, h.getElem?_rest hj (Nat.lt_of_succ_lt hplace),
    h.getElem?_rest (Nat.le_succ_of_le hj) hplace]
  rfl

theorem high_sample (row : Array UInt8) (i : Nat) :
    UInt8.ofNat (sample row i / 256) = row.getD i 0 := by
  have hlow := (row.getD (i + 1) 0).toNat_lt
  rw [sample, Nat.mul_comm, Nat.mul_add_div (by decide), Nat.div_eq_of_lt hlow, Nat.add_zero,
    UInt8.ofNat_toNat]

theorem low_sample (row : Array UInt8) (i : Nat) :
    UInt8.ofNat (sample row i) = row.getD (i + 1) 0 := by
  rw [sample, ← UInt8.toNat_inj, UInt8.toNat_ofNat']
  have hlow := (row.getD (i + 1) 0).toNat_lt
  omega

/-- Two bytes are restored at a time. -/
def OverwritesWords (old : Array UInt8) (k : Nat) (row done : Array UInt8) : Prop :=
  Overwrites old (2 * k) row done

theorem addLeftWord?_spec {colors k : Nat} (hpos : 0 < colors) {row row' done : Array UInt8}
    (hk : k < row.size / 2) (h : OverwritesWords row k row' done) :
    ∃ row'', addLeftWord? colors k row' = some row'' ∧
      OverwritesWords row (k + 1) row'' (
        let left := if colors ≤ k then sample done (2 * (k - colors)) else 0
        let sum := sample row (2 * k) + left
        (done.push (UInt8.ofNat (sum / 256))).push (UInt8.ofNat sum)) := by
  dsimp only
  have hlow : 2 * k + 1 < row.size := by omega
  have hhigh : 2 * k < row.size := Nat.lt_of_succ_lt hlow
  by_cases hle : colors ≤ k
  · have hleft : 2 * (k - colors) + 1 < 2 * k := by omega
    obtain ⟨first, hfirst, hrel⟩ := h.set hhigh
      (UInt8.ofNat ((sample row (2 * k) + sample done (2 * (k - colors))) / 256))
    simp only [addLeftWord?, hle, ↓reduceIte, h.sample?_rest (Nat.le_refl _) hlow,
      h.sample?_done hleft, Option.bind_eq_bind, Option.bind_some, hfirst]
    exact hrel.set hlow _
  · simp only [addLeftWord?, hle, ↓reduceIte, Nat.add_zero, high_sample, low_sample]
    exact ⟨row', rfl, (h.skip hhigh).skip hlow⟩

theorem loop_addLeftWord? {colors : Nat} (hpos : 0 < colors) {row : Array UInt8}
    (hwhole : row.size % 2 = 0) :
    Checked.loop (addLeftWord? colors) (row.size / 2) row = some (restoreWords colors row) ∧
      (restoreWords colors row).size = row.size := by
  have hall : 2 * (row.size / 2) = row.size := by omega
  obtain ⟨row', hloop, hrel⟩ := Checked.loop_fold (R := OverwritesWords row)
    (fun k _ _ hk hrel => addLeftWord?_spec hpos hk hrel) (overwrites_start row)
  have hrestored : row' = restoreWords colors row := Overwrites.eq hrel hall
  refine ⟨?_, hrel.count.trans hall⟩
  rw [hloop, hrestored]

/-- Every complete row can be restored in place, unless its filter is unknown. -/
theorem InBounds.restore?_spec {p : Predictor} (h : p.InBounds) {row : Array UInt8}
    (hrow : row.size = p.layout.rowSize) :
    p.restore? row = some (restore p.layout p.above row) ∧
      ∀ restored, restore p.layout p.above row = .ok restored →
        restored.size = p.layout.rowBytes := by
  have habove := h.above
  have hscratch := h.scratch
  cases hscheme : p.layout.scheme with
  | png =>
    have hrow : row.size = p.layout.rowBytes + 1 := by
      rw [hrow, Layout.rowSize, hscheme]
    have hbody : (row.extract 1 row.size).size = p.layout.rowBytes := by
      rw [Array.size_extract, Nat.min_self, hrow, Nat.add_sub_cancel]
    have htag : row[0]? = some (row.getD 0 0) :=
      (overwrites_start row).getElem?_rest (Nat.le_refl 0) (by omega)
    simp only [restore?, restore, hscheme, htag, Option.bind_eq_bind, Option.bind_some]
    cases hpredict : predict? (row.getD 0 0) with
    | none =>
      rw [filter?_of_predict?.1 hpredict]
      exact ⟨rfl, nofun⟩
    | some predict =>
      obtain ⟨predict', hfilter, hsame⟩ := filter?_of_predict?.2 predict hpredict
      obtain ⟨hinto, hsize⟩ := restoreInto?_spec hsame p.layout.distance_pos
        (habove.trans hbody.symm) (hbody.trans hscratch.symm)
      rw [hfilter]
      dsimp only
      rw [hinto]
      refine ⟨rfl, ?_⟩
      rintro _ ⟨⟩
      exact hsize.trans hbody
  | tiff =>
    have hrow : row.size = p.layout.rowBytes := by
      rw [hrow, Layout.rowSize, hscheme]
    simp only [restore?, restore, hscheme]
    by_cases hbits : p.layout.bits = 8
    · obtain ⟨hloop, hsize⟩ := loop_addLeft? h.layout.colors p.above row
      simp only [hbits, ↓reduceIte, hloop, Option.bind_eq_bind, Option.bind_some,
        Checked.copy_eq ((hsize.trans hrow).trans habove.symm)]
      refine ⟨rfl, ?_⟩
      rintro _ ⟨⟩
      exact hsize.trans hrow
    · have hwhole : row.size % 2 = 0 := by
        rw [hrow]
        exact h.layout.whole hscheme hbits
      obtain ⟨hloop, hsize⟩ := loop_addLeftWord? h.layout.colors hwhole
      simp only [hbits, ↓reduceIte, hloop, Option.bind_eq_bind, Option.bind_some,
        Checked.copy_eq ((hsize.trans hrow).trans habove.symm)]
      refine ⟨rfl, ?_⟩
      rintro _ ⟨⟩
      exact hsize.trans hrow

/-- The rows swap places, or the restored one is copied. -/
theorem InBounds.accept {p : Predictor} (h : p.InBounds) {row : Array UInt8}
    (hrow : row.size = p.layout.rowBytes) : (p.accept row).InBounds where
  pending := Nat.lt_of_le_of_lt (Nat.zero_le _) h.pending
  above := hrow
  scratch := by
    unfold Predictor.accept
    dsimp only
    split
    · exact h.above
    · exact h.scratch
  layout := h.layout

theorem inRange_addByte {p : Predictor} (h : p.InBounds) (b : UInt8) :
    Step.InRange InBounds (addByte? p b) (p.addByte b) := by
  have hroom : p.pending.size ≤ p.layout.rowSize := Nat.le_of_lt h.pending
  have hpos : 0 < p.layout.rowSize - p.pending.size := Nat.sub_pos_of_lt h.pending
  simp only [addByte?, addByte, Checked.sub_eq hroom, Option.bind_eq_bind, Option.bind_some,
    if_pos hpos, if_pos h.pending]
  by_cases hshort : (p.pending.push b).size < p.layout.rowSize
  · rw [if_pos hshort, if_pos hshort]
    exact Step.inRange_quiet ⟨hshort, h.above, h.scratch, h.layout⟩
  · have hrow : (p.pending.push b).size = p.layout.rowSize := by
      apply Nat.le_antisymm
      · rw [Array.size_push]
        exact h.pending
      · exact Nat.le_of_not_lt hshort
    obtain ⟨hsame, hsize⟩ := h.restore?_spec hrow
    rw [if_neg hshort, if_neg hshort, hsame]
    cases hrestored : restore p.layout p.above (p.pending.push b) with
    | ok row => exact Step.inRange_write (h.accept (hsize row hrestored)) _
    | error e => exact Step.inRange_stop _ e

theorem inRange_push {p : Predictor} (h : p.InBounds) (data : Bytes) :
    Step.InRange InBounds (push? p data) (p.push data) :=
  Step.InRange.run (fun _ b hs => inRange_addByte hs b) h data

/-- If there is a predictor, it is within its bounds. -/
def AllInBounds (p : Option Predictor) : Prop := ∀ q, p = some q → q.InBounds

theorem inRange_pass {size : Nat} {p : Option Predictor} (h : AllInBounds p) {piece : Bytes}
    (hpiece : piece.length ≤ size) :
    Step.InRange AllInBounds (pass? size p piece) (pass p piece) := by
  cases p with
  | none =>
    simp only [pass?, hpiece, ↓reduceIte]
    exact Step.inRange_write h piece
  | some p =>
    simp only [pass?, hpiece, ↓reduceIte]
    refine (inRange_push (h p rfl) piece).map fun q hq => ?_
    rintro _ ⟨⟩
    exact hq

theorem inRange_andThen_pass {size : Nat} {out : Step (Option Predictor)}
    (hout : out.fault = none → AllInBounds out.state) {piece : Bytes}
    (hpiece : piece.length ≤ size) :
    Step.InRange AllInBounds (out.andThen? (pass? size · piece)) (out.andThen (pass · piece)) :=
  Step.inRange_andThen hout fun _ hp => inRange_pass hp hpiece

/-- By induction on the pieces. The pieces that are left are among them. -/
theorem passAll?_spec {size : Nat} (out : Step (Option Predictor))
    (hout : out.fault = none → AllInBounds out.state) (pieces : List Bytes)
    (hpieces : ∀ piece ∈ pieces, piece.length ≤ size) :
    passAll? size out pieces = some (passAll out pieces) ∧
      ((passAll out pieces).1.fault = none → AllInBounds (passAll out pieces).1.state) ∧
      ∀ piece ∈ (passAll out pieces).2, piece.length ≤ size := by
  induction pieces generalizing out with
  | nil => exact ⟨rfl, hout, nofun⟩
  | cons first pieces ih =>
    obtain ⟨hfirst, hrest⟩ := List.forall_mem_cons.1 hpieces
    have hpass := inRange_andThen_pass hout hfirst
    rw [passAll?, passAll, hpass.same]
    simp only [Option.bind_eq_bind, Option.bind_some]
    split
    · exact ⟨rfl, hpass.keeps, hrest⟩
    · exact ih _ hpass.keeps hrest

end Predictor
end PdfStream
