import PdfStream.Flate
import PdfStream.Proofs.Flate.Fill
import PdfStream.Proofs.Predictor

/-!
What a reader makes of its data. Whatever the windows and the cuts of the data, the reader always
has the same in store that scanning makes of the bits it has not read yet.
-/
namespace PdfStream
namespace Flate
namespace Reader

open Fill (bitsOf)

/-- A reader in the middle of a stream. Bits and bytes are left only at the start of a window. -/
structure IsReading (r : Reader) : Prop where
  sane : r.inflate.IsSane
  finished : r.inflate.isFinished = false
  broken : r.inflate.isBroken = false
  bits : r.bits.length ≤ 8
  spill : r.spill.length ≤ 258
  level : r.level < windowLength
  fresh : r.spill ≠ [] ∨ r.bits ≠ [] → r.level = 0
  waiting : r.waiting = []

theorem isReading_default : IsReading {} where
  sane := trivial
  finished := rfl
  broken := rfl
  bits := Nat.zero_le _
  spill := Nat.zero_le _
  level := by decide
  fresh := fun _ => rfl
  waiting := rfl

/-- What the bits left, the data and the bits after them stand for, bytes in the spill included. -/
def toCome (r : Reader) (data : Bytes) (bits : List Bool) : Option Bytes :=
  (r.inflate.scan (r.bits ++ bitsOf data ++ bits)).map (r.spill ++ ·)

theorem toCome_append (r : Reader) (data rest : Bytes) (bits : List Bool) :
    r.toCome (data ++ rest) bits = r.toCome data (bitsOf rest ++ bits) := by
  have hbits : bitsOf (data ++ rest) = bitsOf data ++ bitsOf rest :=
    Bits.ofBytes_append .lowFirst data rest
  rw [toCome, toCome, hbits]
  simp

/-- The window has room for more than was spilled. -/
theorem spill_lt_room {r : Reader} (h : r.IsReading) : r.spill.length < r.room := by
  have hlevel := h.level
  have hspill := h.spill
  by_cases hnil : r.spill = []
  · rw [hnil, List.length_nil, room]
    omega
  · rw [room, h.fresh (.inl hnil)]
    exact Nat.lt_of_le_of_lt hspill (by decide)

/-- A fill, and what it left of its data. -/
structure IsFill (r : Reader) (data : Bytes) (f : Fill) : Prop where
  inAll : ∀ bits, r.toCome data bits = f.inAll (f.bits ++ bitsOf f.data ++ bits)
  fits : f.Fits r.room
  bits : f.bits.length ≤ 8
  done : f.bits ≠ [] ∨ f.data ≠ [] → f.isDone r.room = true
  left : f.left < r.left data ∨ f.data = []

section
variable {r : Reader}

def start (r : Reader) : Fill := { inflate := r.inflate, bytes := r.spill.toArray }

theorem fits_start (h : r.IsReading) : r.start.Fits r.room := by
  have hroom := spill_lt_room h
  have hsize : r.start.bytes.size = r.spill.length := List.size_toArray
  exact ⟨h.sane, by omega, fun hover => by omega⟩

theorem not_done_start (h : r.IsReading) : ¬r.start.isDone r.room = true := by
  have hroom := spill_lt_room h
  have hsize : r.start.bytes.size = r.spill.length := List.size_toArray
  have hover : ¬r.room < r.start.bytes.size := by omega
  have hfull : ¬r.start.bytes.size = r.room := by omega
  have hfinished : r.start.inflate.isFinished = false := h.finished
  have hbroken : r.start.inflate.isBroken = false := h.broken
  simp [Fill.isDone, hfinished, hbroken, hover, hfull]

theorem left_fill (h : r.IsReading) (data : Bytes) :
    (r.fill data).left < r.left data ∨ (r.fill data).data = [] := by
  have hrest : (r.fill data).left ≤
      (r.start.readBits r.room r.bits).bits.length + 8 * data.length := Fill.left_readBytes _ data
  by_cases hbits : r.bits = []
  · by_cases hdata : data = []
    · right
      rw [hdata]
      rfl
    · left
      have hnil : r.start.readBits r.room r.bits = r.start := by
        rw [hbits]
        rfl
      have hless := Fill.left_readBytes_lt (not_done_start h) rfl hdata
      rw [← hnil] at hless
      rw [left, hbits, List.length_nil, Nat.zero_add]
      exact hless
  · left
    have hless := Fill.length_readBits_lt (not_done_start h) hbits
    exact Nat.lt_of_le_of_lt hrest (Nat.add_lt_add_right hless _)

theorem isFill_fill (h : r.IsReading) (data : Bytes) : r.IsFill data (r.fill data) where
  inAll := fun bits => by
    have hbytes : (r.fill data).inAll ((r.fill data).bits ++ bitsOf (r.fill data).data ++ bits) =
        (r.start.readBits r.room r.bits).inAll
          ((r.start.readBits r.room r.bits).bits ++ bitsOf data ++ bits) :=
      Fill.readBytes_inAll _ data bits
    have hbits : (r.start.readBits r.room r.bits).inAll
          ((r.start.readBits r.room r.bits).bits ++ (bitsOf data ++ bits)) =
        r.start.inAll (r.bits ++ (bitsOf data ++ bits)) := Fill.readBits_inAll r.start r.bits _
    rw [← List.append_assoc, hbytes.symm, ← List.append_assoc] at hbits
    exact hbits.symm
  fits := (fits_start h).readBits r.bits |>.readBytes data
  bits := Fill.bits_readBytes (Nat.le_trans (Fill.length_readBits _ _) h.bits) data
  done := Fill.isDone_readBytes (Fill.isDone_readBits r.start)
  left := left_fill h data

end

/-- A fill that stopped before its data were used up, and not at the end, made the window full. -/
theorem room_le_of_done {room : Nat} {f : Fill} (hdone : f.isDone room = true)
    (hfinished : f.inflate.isFinished = false) (hbroken : f.inflate.isBroken = false) :
    room ≤ f.bytes.size := by
  simp only [Fill.isDone, hfinished, hbroken, Bool.false_or, Bool.or_eq_true, Bool.and_eq_true,
    decide_eq_true_eq] at hdone
  omega

theorem isReading_ofFill {r : Reader} {data : Bytes} {f : Fill} (h : r.IsFill data f)
    (hlevel : r.level < windowLength) (hfinished : f.inflate.isFinished = false)
    (hbroken : f.inflate.isBroken = false) : (ofFill r.level f []).IsReading where
  sane := h.fits.sane
  finished := hfinished
  broken := hbroken
  bits := h.bits
  spill := by
    have hsize := h.fits.size
    rw [room] at hsize
    simp only [ofFill, List.length_drop, Array.length_toList]
    omega
  level := Nat.mod_lt _ (by decide)
  fresh := fun hleft => by
    have hroom : r.room ≤ f.bytes.size := by
      rcases hleft with hspill | hbits
      · apply Nat.le_of_not_lt
        intro hless
        refine hspill (List.drop_of_length_le ?_)
        rw [Array.length_toList]
        exact Nat.le_of_lt hless
      · exact room_le_of_done (h.done (.inl hbits)) hfinished hbroken
    rw [room] at hroom
    have hfull : r.level + (windowLength - r.level) = windowLength := by omega
    rw [ofFill, Nat.min_eq_right hroom, hfull, Nat.mod_self]
  waiting := rfl

/-- What comes out in the end after some reading, if `bits` are still to come. -/
def stillInStore (bits : List Bool) (r : Step (Reader × Option Predictor)) : Option Bytes :=
  if r.state.1.inflate.isFinished then Predictor.total (r.map Prod.snd) []
  else Predictor.inStore (r.state.1.toCome [] bits) [] (r.map Prod.snd)

/-- Reading that loses nothing of what was in store. -/
structure Keeps (store : List Bool → Option Bytes) (r : Step (Reader × Option Predictor)) :
    Prop where
  store : ∀ bits, store bits = stillInStore bits r
  reading : r.fault = none → r.state.1.inflate.isFinished = false → r.state.1.IsReading

theorem Keeps.of_store {store store' : List Bool → Option Bytes}
    {r : Step (Reader × Option Predictor)} (h : Keeps store r)
    (hsame : ∀ bits, store' bits = store bits) : Keeps store' r :=
  ⟨fun bits => (hsame bits).trans (h.store bits), h.reading⟩

theorem stillInStore_of_fault {r : Step (Reader × Option Predictor)} {e : Error}
    (h : r.fault = some e) (bits : List Bool) : stillInStore bits r = none := by
  have hmap : (r.map Prod.snd).fault = some e := h
  unfold stillInStore
  split
  · exact Predictor.total_of_fault hmap []
  · exact Predictor.inStore_of_fault hmap _ _

theorem keeps_of_fault {store : List Bool → Option Bytes} {r : Step (Reader × Option Predictor)}
    {e : Error} (h : r.fault = some e) (hstore : ∀ bits, store bits = none) : Keeps store r := by
  refine ⟨fun bits => ?_, ?_⟩
  · rw [hstore, stillInStore_of_fault h]
  · intro hnone
    rw [h] at hnone
    cases hnone

/-- What a fill brought, less the bytes for which the window had no room. -/
theorem toCome_ofFill {r : Reader} {data : Bytes} {f : Fill} (h : r.IsFill data f)
    (waiting : List Bytes) (bits : List Bool) :
    r.toCome data bits = ((ofFill r.level f waiting).toCome f.data bits).map
      ((f.bytes.extract 0 (windowLength - r.level)).toList ++ ·) := by
  have hbytes : (f.bytes.extract 0 (windowLength - r.level)).toList ++
      f.bytes.toList.drop (windowLength - r.level) = f.bytes.toList := by
    rw [Array.toList_extract, List.extract_eq_take_drop, List.drop_zero, Nat.sub_zero,
      List.take_append_drop]
  rw [h.inAll, Fill.inAll, toCome, Option.map_map]
  congr 1
  funext later
  rw [Function.comp_apply, ofFill, ← List.append_assoc, hbytes]

/-- At the end of the stream nothing is left. -/
theorem toCome_of_finished {r : Reader} {data : Bytes} {f : Fill} (h : r.IsFill data f)
    (hfinished : f.inflate.isFinished = true) (waiting : List Bytes) (bits : List Bool) :
    (ofFill r.level f waiting).toCome f.data bits = some [] := by
  have hsize : f.bytes.size ≤ windowLength - r.level := by
    apply Nat.le_of_not_lt
    intro hover
    rw [h.fits.finished hover] at hfinished
    cases hfinished
  have hspill : (ofFill r.level f waiting).spill = [] :=
    List.drop_of_length_le (by simpa using hsize)
  have hscan (bits : List Bool) : (ofFill r.level f waiting).inflate.scan bits = some [] :=
    Inflate.scan_of_finished hfinished bits
  rw [toCome, hscan, hspill]
  rfl

theorem data_of_ends {r : Reader} {data : Bytes} {f : Fill} (h : r.IsFill data f)
    (hfinished : f.inflate.isFinished = false) {size : Nat} (hends : Ends (r.left data) f size) :
    f.data = [] := by
  rcases hends with hfalse | hempty | hleft
  · rw [hfinished] at hfalse
    cases hfalse
  · exact hempty.1
  · exact h.left.resolve_left (Nat.not_lt_of_le hleft)

/-- The last fill. -/
theorem keeps_last {r : Reader} {data : Bytes} {f : Fill} (h : r.IsFill data f)
    (hlevel : r.level < windowLength) (hbroken : f.inflate.isBroken = false) {size : Nat}
    (hends : Ends (r.left data) f size) (out : Step (Option Predictor)) :
    Keeps (fun bits => Predictor.inStore ((ofFill r.level f []).toCome f.data bits) [] out)
      (out.map fun p => (ofFill r.level f [], p)) := by
  cases hfinished : f.inflate.isFinished with
  | true =>
    refine ⟨fun bits => ?_, ?_⟩
    · rw [toCome_of_finished h hfinished, stillInStore]
      exact (if_pos hfinished).symm
    · intro _ hfalse
      exact absurd (hfinished.symm.trans hfalse) (by decide)
  | false =>
    refine ⟨fun bits => ?_, fun _ _ => isReading_ofFill h hlevel hfinished hbroken⟩
    rw [data_of_ends h hfinished hends, stillInStore]
    refine (if_neg ?_).symm
    show ¬f.inflate.isFinished = true
    rw [hfinished]
    decide

/-- By induction on the bits left: a fill that is not the last leaves fewer. -/
theorem keeps_readOn {r : Reader} (h : r.IsReading) (piece : Array UInt8) (data : Bytes)
    (out : Step (Option Predictor)) :
    Keeps (fun bits => Predictor.inStore (r.toCome data bits) piece.toList out)
      (readOn r piece data out) := by
  induction hn : r.left data using Nat.strongRecOn generalizing r piece data out with
  | ind n ih =>
    subst hn
    have hfill := isFill_fill h data
    unfold readOn
    revert hfill
    generalize r.fill data = f
    intro hfill
    have hstore (waiting : List Bytes) (bits : List Bool) :
        Predictor.inStore (r.toCome data bits) piece.toList out =
          Predictor.inStore ((ofFill r.level f waiting).toCome f.data bits)
            (piece ++ f.bytes.extract 0 (windowLength - r.level)).toList out := by
      rw [toCome_ofFill hfill waiting, Predictor.inStore_map, Array.toList_append]
    dsimp only
    split
    next hbroken =>
      obtain ⟨e, he⟩ := Step.fault_andThen_stop out Inflate.corrupt
      apply keeps_of_fault (e := e) he
      intro bits
      rw [hfill.inAll, Fill.inAll, Inflate.scan_of_broken hbroken]
      rfl
    next hbroken =>
      have hsound : f.inflate.isBroken = false := by simpa using hbroken
      generalize piece ++ f.bytes.extract 0 (windowLength - r.level) = whole at hstore ⊢
      have hagain (hends : ¬Ends (r.left data) f whole.size) (piece : Array UInt8)
          (out : Step (Option Predictor)) :
          Keeps (fun bits => Predictor.inStore ((ofFill r.level f []).toCome f.data bits)
            piece.toList out) (readOn (ofFill r.level f []) piece f.data out) := by
        have hfinished : f.inflate.isFinished = false := by
          simpa using fun hfinished => hends (.inl hfinished)
        exact ih _ (left_lt_of_not_ends hends) (isReading_ofFill hfill h.level hfinished hsound)
          piece f.data out rfl
      split
      next hsmall => exact (hagain hsmall.1 whole out).of_store fun bits => hstore [] bits
      next =>
        have hclosed (bits : List Bool) : Predictor.inStore (r.toCome data bits) piece.toList out =
            Predictor.inStore ((ofFill r.level f []).toCome f.data bits) []
              (Predictor.passAll out (Bytes.chunks pieceLength whole.toList)).1 := by
          rw [hstore [], Predictor.inStore_passAll, Bytes.flatten_chunks (by decide),
            List.append_nil]
        have hleft (h : (Predictor.passAll out (Bytes.chunks pieceLength whole.toList)).1.fault =
            none) : (Predictor.passAll out (Bytes.chunks pieceLength whole.toList)).2 = [] :=
          Predictor.passAll_left h
        revert hclosed hleft
        rcases Predictor.passAll out (Bytes.chunks pieceLength whole.toList) with ⟨out', waiting⟩
        intro hclosed hleft
        dsimp only at hclosed hleft ⊢
        split
        next hmore => exact (hagain hmore.1 #[] out').of_store hclosed
        next hstop =>
          cases hfault : out'.fault with
          | some e =>
            apply keeps_of_fault (e := e) hfault
            intro bits
            rw [hclosed, Predictor.inStore_of_fault hfault]
          | none =>
            have hends : Ends (r.left data) f whole.size := by
              simpa [hfault] using hstop
            rw [hleft hfault]
            exact (keeps_last hfill h.level hsound hends out').of_store hclosed

theorem feed_eq {r : Reader} (h : r.IsReading) (data : Bytes) (p : Option Predictor) :
    r.feed data p = readOn r #[] data (.quiet p) := by
  obtain ⟨inflate, bits, spill, level, waiting⟩ := r
  have hbroken := h.broken
  have hwaiting : waiting = [] := h.waiting
  subst hwaiting
  rw [feed, if_neg (by rw [hbroken]; decide)]
  simp [Predictor.passAll]

theorem feed_keeps {r : Reader} (h : r.IsReading) (data : Bytes) (p : Option Predictor) :
    Keeps (fun bits => Predictor.inStore (r.toCome data bits) [] (.quiet p)) (r.feed data p) := by
  rw [feed_eq h]
  exact keeps_readOn h #[] data _

/-- Without data, the few bits and bytes that are left do not fill a window. -/
theorem size_fill_nil {r : Reader} (h : r.IsReading) :
    (r.fill []).bytes.size < pieceLength ∧
      ((r.fill []).bits = [] ∨ (r.fill []).bytes.size < r.room) := by
  have hspill := h.spill
  have hbits := h.bits
  have hsize : (r.fill []).bytes.size ≤ r.spill.length + 258 * r.bits.length := by
    have hread := Fill.size_readBits (fits_start h) r.bits
    rwa [start, List.size_toArray] at hread
  have hsmall : (r.fill []).bytes.size < pieceLength := by
    have hpiece : pieceLength = 8192 := rfl
    omega
  refine ⟨hsmall, ?_⟩
  by_cases hnil : r.bits = []
  · left
    rw [fill, hnil]
    rfl
  · right
    rw [room, h.fresh (.inr hnil)]
    exact Nat.lt_trans hsmall (by decide)

/-- Without data, all bits are read. -/
theorem bits_feed_nil {r : Reader} (h : r.IsReading) (p : Option Predictor)
    (hfault : (r.feed [] p).fault = none)
    (hfinished : (r.feed [] p).state.1.inflate.isFinished = false) :
    (r.feed [] p).state.1.bits = [] := by
  obtain ⟨hsmall, hbits⟩ := size_fill_nil h
  have hfill := isFill_fill h []
  have hdata : (r.fill []).data = [] := rfl
  rw [feed_eq h] at hfault hfinished ⊢
  unfold readOn at hfault hfinished ⊢
  revert hsmall hbits hfill hdata hfault hfinished
  generalize r.fill [] = f
  intro hsmall hbits hfill hdata
  dsimp only
  split
  next hbroken =>
    intro hfault
    obtain ⟨e, he⟩ := Step.fault_andThen_stop (.quiet p) Inflate.corrupt
    rw [Step.fault_map, he] at hfault
    cases hfault
  next hbroken =>
    have hwhole : (#[] ++ f.bytes.extract 0 (windowLength - r.level)).size < pieceLength := by
      rw [Array.size_append, Array.size_extract, Array.size_empty]
      omega
    generalize #[] ++ f.bytes.extract 0 (windowLength - r.level) = whole at hwhole ⊢
    have hends : Ends (r.left []) f whole.size := by
      refine .inr (.inl ⟨hdata, ?_⟩)
      by_cases hzero : whole.size = 0
      · exact .inl hzero
      · right
        rw [Nat.mod_eq_of_lt hwhole]
        exact hzero
    rw [dif_neg fun hmore => hmore.1 hends, dif_neg fun hmore => hmore.1 hends]
    intro hfault hfinished
    refine hbits.elim id fun hless => ?_
    by_contra hne
    have hroom := room_le_of_done (hfill.done (.inl hne)) hfinished (by simpa using hbroken)
    omega

end Reader

def decoding : Coder Flate := ⟨fun data c => c.decodeBlock data, endDecode⟩

/-- What a decode session makes of the data. -/
def decoded (c : Flate) (data : Bytes) : Option Bytes :=
  if c.finished then Predictor.total (.quiet c.predictor) []
  else
    match c.reader with
    | none => none
    | some r => Predictor.inStore (r.toCome data []) [] (.quiet c.predictor)

/-- The codec knows whether the stream is over, and if it is not, the reader can go on. -/
def IsDecoding (c : Flate) : Prop :=
  ∀ r, c.reader = some r → r.inflate.isFinished = c.finished ∧ (c.finished = false → r.IsReading)

theorem decoded_of_finished {c : Flate} (h : c.finished = true) (data : Bytes) :
    decoded c data = some [] := by
  rw [decoded, if_pos h]
  exact Predictor.total_nil rfl

section
variable {c : Flate}

theorem decodeBlock_of_finished (h : c.finished = true) (data : Bytes) :
    c.decodeBlock data = .quiet c := if_pos h

section
variable (hfinished : c.finished = false)
include hfinished

theorem decodeBlock_of_none (hr : c.reader = none) (data : Bytes) :
    c.decodeBlock data = c.notStarted .decode := by
  rw [decodeBlock, if_neg (by rw [hfinished]; decide), hr]

theorem decoded_of_none (hr : c.reader = none) (data : Bytes) : decoded c data = none := by
  rw [decoded, if_neg (by rw [hfinished]; decide), hr]

theorem decoded_of_reading {r : Flate.Reader} (hr : c.reader = some r) (data : Bytes) :
    decoded c data = Predictor.inStore (r.toCome data []) [] (.quiet c.predictor) := by
  rw [decoded, if_neg (by rw [hfinished]; decide), hr]

variable {r : Flate.Reader} (hr : c.reader = some r)
include hr

theorem decodeBlock_eq (data : Bytes) :
    c.decodeBlock data = ((r.feed data c.predictor).map fun (reader, predictor) =>
      { c with reader := some reader, predictor }).andThen fun c =>
        .quiet { c with finished := c.reader.any (·.inflate.isFinished) } := by
  rw [decodeBlock, if_neg (by rw [hfinished]; decide), hr]

theorem decodeBlock_yields {data : Bytes} (h : (r.feed data c.predictor).fault = none) :
    (c.decodeBlock data).Yields { c with
      reader := some (r.feed data c.predictor).state.1
      predictor := (r.feed data c.predictor).state.2
      finished := (r.feed data c.predictor).state.1.inflate.isFinished }
      (r.feed data c.predictor).bytes := by
  have hquiet := ((Step.yields_of_no_fault h).map fun ((reader, predictor) :
      Flate.Reader × Option Predictor) => { c with reader := some reader, predictor }).andThen
    (f := fun c => .quiet { c with finished := c.reader.any (·.inflate.isFinished) })
    (Step.yields_quiet _)
  rw [List.append_nil] at hquiet
  rw [decodeBlock_eq hfinished hr]
  exact hquiet

theorem decodeBlock_of_fault {data : Bytes} {e : Error}
    (h : (r.feed data c.predictor).fault = some e) : (c.decodeBlock data).fault = some e := by
  have hmap : ((r.feed data c.predictor).map fun ((reader, predictor) :
      Flate.Reader × Option Predictor) =>
        { c with reader := some reader, predictor }).fault = some e := h
  rw [decodeBlock_eq hfinished hr, Step.andThen_of_fault hmap, hmap]

/-- What the codec has in store is what its reader has. -/
theorem decodeBlock_reading (h : r.IsReading) (data : Bytes) :
    ((c.decodeBlock data).fault = none → (c.decodeBlock data).state.IsDecoding) ∧
      ∀ rest, decoded c (data ++ rest) = (c.decodeBlock data).output?.bind fun out =>
        (decoded (c.decodeBlock data).state rest).map (out ++ ·) := by
  have hfeed := Reader.feed_keeps h data c.predictor
  cases hf : (r.feed data c.predictor).fault with
  | some e =>
    have hfault := decodeBlock_of_fault hfinished hr hf
    refine ⟨fun hnone => ?_, ?_⟩
    · rw [hfault] at hnone
      cases hnone
    · intro rest
      rw [decoded_of_reading hfinished hr, Reader.toCome_append, hfeed.store,
        Reader.stillInStore_of_fault hf, Step.output?_of_fault hfault, Option.bind_none]
  | none =>
    have hyields := decodeBlock_yields hfinished hr hf
    rw [hyields.2.1, hyields.output?]
    refine ⟨fun _ r' hr' => ?_, ?_⟩
    · cases hr'
      exact ⟨rfl, hfeed.reading hf⟩
    · intro rest
      have hmap : ((r.feed data c.predictor).map Prod.snd).fault = none := hf
      have hbits := (r.feed data c.predictor).state.1.toCome_append [] rest []
      rw [List.nil_append] at hbits
      rw [decoded_of_reading hfinished hr, Reader.toCome_append, hfeed.store, Reader.stillInStore,
        decoded, Option.bind_some]
      dsimp only
      split
      next => rw [Predictor.total_of_no_fault hmap, Predictor.total_of_no_fault rfl]; simp
      next => rw [Predictor.inStore_of_no_fault hmap, hbits]; rfl

end

/-- A block, from any state of a session. -/
theorem decodeBlock_spec (hc : c.IsDecoding) (data : Bytes) :
    ((c.decodeBlock data).fault = none → (c.decodeBlock data).state.IsDecoding) ∧
      ∀ rest, decoded c (data ++ rest) = (c.decodeBlock data).output?.bind fun out =>
        (decoded (c.decodeBlock data).state rest).map (out ++ ·) := by
  cases hfinished : c.finished with
  | true =>
    rw [decodeBlock_of_finished hfinished]
    refine ⟨fun _ => hc, ?_⟩
    intro rest
    rw [decoded_of_finished hfinished, Step.output?_quiet, Option.bind_some, Step.state_quiet,
      decoded_of_finished hfinished]
    rfl
  | false =>
    cases hr : c.reader with
    | none =>
      rw [decodeBlock_of_none hfinished hr]
      refine ⟨fun hnone => ?_, fun rest => decoded_of_none hfinished hr _⟩
      cases hnone
    | some r => exact decodeBlock_reading hfinished hr ((hc r hr).2 hfinished) data

/-- If the stream is not over after a block without data, it was cut. -/
theorem decoded_nil_of_cut (hc : c.IsDecoding) (hfault : (c.decodeBlock []).fault = none)
    (hcut : (c.decodeBlock []).state.finished = false) :
    decoded (c.decodeBlock []).state [] = none := by
  cases hfinished : c.finished with
  | true =>
    rw [decodeBlock_of_finished hfinished, Step.state_quiet, hfinished] at hcut
    cases hcut
  | false =>
    cases hr : c.reader with
    | none =>
      rw [decodeBlock_of_none hfinished hr] at hfault
      cases hfault
    | some r =>
      have hreading := (hc r hr).2 hfinished
      cases hf : (r.feed [] c.predictor).fault with
      | some e =>
        rw [decodeBlock_of_fault hfinished hr hf] at hfault
        cases hfault
      | none =>
        have hyields := decodeBlock_yields hfinished hr hf
        rw [hyields.2.1] at hcut ⊢
        have hbits := Reader.bits_feed_nil hreading c.predictor hf hcut
        rw [decoded_of_reading hcut rfl, Reader.toCome, hbits]
        have hnone : (r.feed [] c.predictor).state.1.inflate.scan [] = none :=
          Inflate.scan_nil hcut
        show Predictor.inStore (((r.feed [] c.predictor).state.1.inflate.scan []).map _) _ _ = none
        rw [hnone]
        rfl

theorem endDecode_spec (hc : c.IsDecoding) : c.endDecode.output? = decoded c [] := by
  have hblock := (decodeBlock_spec hc []).2 []
  rw [List.append_nil] at hblock
  rw [hblock, endDecode, Step.output?_andThen]
  cases hf : (c.decodeBlock []).fault with
  | some e => rw [Step.output?_of_fault hf, Option.bind_none, Option.bind_none]
  | none =>
    rw [Step.output?_of_no_fault hf, Option.bind_some, Option.bind_some]
    congr 1
    cases hfinished : (c.decodeBlock []).state.finished with
    | true =>
      rw [decoded_of_finished hfinished]
      simp only [Bool.not_true, Bool.false_eq_true, if_false, Step.output?_map,
        Predictor.output?_close]
    | false =>
      rw [decoded_nil_of_cut hc hf hfinished]
      rfl

end

theorem decoding_computes {c : Flate} (hc : c.IsDecoding) : decoding.Computes c (decoded c) :=
  Coder.computes_of_meaning IsDecoding decoded (fun _ data h => (decodeBlock_spec h data).1)
    (fun _ data rest h => (decodeBlock_spec h data).2 rest) (fun _ h => endDecode_spec h) hc

theorem isDecoding_beginDecode {c : Flate} {parms : Option DecodeParms}
    (h : (c.beginDecode parms).fault = none) : (c.beginDecode parms).state.IsDecoding := by
  unfold beginDecode at h ⊢
  split at h
  next => cases h
  next predictor hparms =>
    rintro r ⟨⟩
    exact ⟨rfl, fun _ => Reader.isReading_default⟩

end Flate
end PdfStream
