import PdfStream.Lzw
import PdfStream.Proofs.Bits
import PdfStream.Proofs.Checked.Predictor
import PdfStream.Proofs.Lzw.Decoder
import PdfStream.Proofs.Lzw.Encoder

/-!
The checked steps of the LZW filter. Both directions work through a buffer of 4096 bytes. The
encoder writes a piece before bits could run over it; a word of the decoder fits the buffer, since
words grow by one byte with every entry of a table that has no more than 4096 of them.
-/
namespace PdfStream.Lzw
namespace Encoder

def writePiece? (e : Encoder) : Option (Step Encoder) := e.writePiece.within? pieceLength

def addByte? (e : Encoder) (b : UInt8) : Option (Step Encoder) :=
  if e.IsDue ∧ e.room < e.bytesHeld then
    e.settle.writePiece?.map (Step.map fun e => e.settle.extend b)
  else some (.quiet (e.settle.extend b))

def feed? (e : Encoder) (data : Bytes) : Option (Step Encoder) :=
  if data = [] then some (.quiet e)
  else Step.run? addByte? e data >>= fun r => r.andThen? fun e => e.settle.writePiece?

def finish? (e : Encoder) : Option (Step Encoder) := e.finish.within? pieceLength

/-- The bits held back are at most those of a full word of 64 bits and two codes. -/
structure IsBounded (e : Encoder) : Prop where
  width : e.width ≤ maxWidth
  held : e.held.length ≤ 88
  piece : e.piece.size ≤ pieceLength

section
variable {e : Encoder}

theorem isBounded_create (earlyChange : Bool) : (create earlyChange).IsBounded := by
  refine ⟨(by decide : 9 ≤ maxWidth), ?_, Nat.zero_le _⟩
  rw [create, Bits.length_highFirst]
  decide

theorem length_emit (e : Encoder) (code : Nat) :
    (e.emit code).held.length = e.held.length + e.width := by
  rw [emit, List.length_append, Bits.length_highFirst]

theorem width_widen (h : e.width ≤ maxWidth) (limit : Nat) : (e.widen limit).width ≤ maxWidth := by
  unfold widen
  split
  next hroom => exact hroom.2
  next => exact h

theorem held_widen (e : Encoder) (limit : Nat) : (e.widen limit).held = e.held := by
  unfold widen
  split <;> rfl

theorem clearIfFull_spec (h : e.width ≤ maxWidth) :
    e.clearIfFull.width ≤ maxWidth ∧ e.clearIfFull.held.length ≤ e.held.length + maxWidth := by
  unfold clearIfFull
  split
  · refine ⟨(by decide : 9 ≤ maxWidth), ?_⟩
    rw [length_emit]
    exact Nat.add_le_add_left h _
  · exact ⟨h, Nat.le_add_right _ _⟩

/-- A byte brings at most two codes. -/
theorem extend_spec (h : e.width ≤ maxWidth) (b : UInt8) :
    (e.extend b).width ≤ maxWidth ∧
      (e.extend b).held.length ≤ e.held.length + 2 * maxWidth := by
  cases hc : e.current with
  | none =>
    rw [extend_of_start hc]
    exact ⟨h, Nat.le_add_right _ _⟩
  | some word =>
    cases hchild : e.children[(word, b)]? with
    | some code =>
      rw [extend_of_known hc hchild]
      exact ⟨h, Nat.le_add_right _ _⟩
    | none =>
      rw [extend_of_new hc hchild]
      obtain ⟨hwidth, hheld⟩ := clearIfFull_spec
        (width_widen (e := e.turn word b) h (1 <<< e.width))
      have hturn : (e.turn word b).held.length = e.held.length + e.width := length_emit _ word
      rw [held_widen, hturn] at hheld
      refine ⟨hwidth, Nat.le_trans hheld ?_⟩
      omega

theorem length_pack_le (order : Bits.Order) (bits : List Bool) :
    8 * (Bits.pack order bits).1.length ≤ bits.length := by
  have hall := congrArg List.length (Bits.ofBytes_pack order bits)
  rw [List.length_append, Bits.length_ofBytes] at hall
  omega

theorem length_packAll_le (order : Bits.Order) (bits : List Bool) :
    (Bits.packAll order bits).length ≤ bits.length / 8 + 1 := by
  have hwhole := length_pack_le order bits
  have hpadded : (Bits.padded order (Bits.pack order bits).2).length ≤ 1 := by
    unfold Bits.padded
    split
    · exact Nat.zero_le 1
    · exact Nat.le_refl 1
  rw [Bits.packAll, List.length_append]
  omega

theorem IsBounded.settle (h : e.IsBounded) : e.settle.IsBounded := by
  unfold Encoder.settle
  split
  · refine ⟨h.width, ?_, ?_⟩
    · show (e.held.drop _).length ≤ 88
      rw [List.length_drop]
      exact Nat.le_trans (Nat.sub_le _ _) h.held
    · have hpack := length_pack_le .highFirst (e.held.take (8 * min e.bytesHeld e.room))
      have hpiece := h.piece
      rw [List.length_take] at hpack
      rw [move, ← Array.length_toList, Array.toList_appendList, List.length_append,
        Array.length_toList]
      have hroom : e.room + e.piece.size = pieceLength := Nat.sub_add_cancel hpiece
      omega
  · exact h

/-- If the piece has room, what stays behind is short. -/
theorem held_settle (h : ¬(e.IsDue ∧ e.room < e.bytesHeld)) : e.settle.held.length ≤ 64 := by
  unfold settle
  split
  next hdue =>
    have hroom : e.bytesHeld ≤ e.room := Nat.le_of_not_lt fun hlt => h ⟨hdue, hlt⟩
    show (e.held.drop _).length ≤ 64
    rw [Nat.min_eq_left hroom, List.length_drop]
    unfold bytesHeld
    omega
  next hdue =>
    unfold IsDue heldLength at hdue
    omega

theorem IsBounded.extend (h : e.IsBounded) (hheld : e.held.length ≤ 64) (b : UInt8) :
    (e.extend b).IsBounded := by
  obtain ⟨hwidth, hlength⟩ := extend_spec h.width b
  refine ⟨hwidth, Nat.le_trans hlength ?_, ?_⟩
  · exact Nat.add_le_add_right hheld _
  · rw [piece_extend]
    exact h.piece

theorem inRange_writePiece (h : e.IsBounded) :
    Step.InRange (fun s => s.IsBounded ∧ s.piece = #[]) e.writePiece? e.writePiece := by
  refine Step.inRange_within (fun _ => ⟨⟨h.width, h.held, Nat.zero_le _⟩, rfl⟩) ?_
  rintro span (_ | ⟨_, ⟨⟩⟩)
  exact h.piece

theorem inRange_addByte (h : e.IsBounded) (b : UInt8) :
    Step.InRange IsBounded (addByte? e b) (e.addByte b) := by
  unfold addByte? addByte
  split
  next =>
    refine (inRange_writePiece h.settle).map fun s hs => ?_
    -- an empty piece takes all the bytes held back
    have hroom : ¬(s.IsDue ∧ s.room < s.bytesHeld) := by
      rintro ⟨-, hlt⟩
      have hheld := hs.1.held
      rw [room, hs.2, bytesHeld, pieceLength, Array.size_empty] at hlt
      omega
    exact hs.1.settle.extend (held_settle hroom) b
  next hroom => exact Step.inRange_quiet (h.settle.extend (held_settle hroom) b)

theorem inRange_feed (h : e.IsBounded) (data : Bytes) :
    Step.InRange IsBounded (feed? e data) (e.feed data) := by
  unfold feed? feed
  split
  · exact Step.inRange_quiet h
  · refine (Step.InRange.run (fun _ b hs => inRange_addByte hs b) h data).andThen fun s hs => ?_
    exact (inRange_writePiece hs.settle).mono fun _ => And.left

theorem inRange_finish (h : e.IsBounded) :
    Step.InRange (fun _ => True) (finish? e) e.finish := by
  refine Step.inRange_within (fun _ => trivial) ?_
  have hlast : e.last.width ≤ maxWidth ∧ e.last.held.length ≤ 88 + maxWidth := by
    unfold last
    cases e.current with
    | none => exact ⟨h.width, Nat.le_trans h.held (Nat.le_add_right _ _)⟩
    | some word =>
      dsimp only
      rw [held_widen, length_emit]
      exact ⟨width_widen (e := e.emit word) h.width _, Nat.add_le_add h.held h.width⟩
  have hbits : e.closing.length ≤ 88 + maxWidth + maxWidth := by
    rw [closing, length_emit]
    exact Nat.add_le_add hlast.2 hlast.1
  have hpacked := length_packAll_le .highFirst e.closing
  rintro span (_ | ⟨_, ⟨⟩⟩)
  show (Bits.packAll .highFirst e.closing).length ≤ 4096
  unfold maxWidth at hbits
  omega

end
end Encoder

namespace Reader

/-- Every piece is cut from the buffer, and no call uses more data than there are. -/
def feed? (r : Reader) (data : Bytes) (p : Option Predictor) :
    Option (Step (Reader × Option Predictor)) :=
  let c := r.call data
  if c.isValid then
    Checked.sub data.length c.rest.length >>= fun _ =>
      (Predictor.pass? pieceLength p c.piece.toList).map (Step.map fun p => (c.reader, p)) >>=
        fun out => if _ : c.Ends data then some out
          else out.andThen? fun s => feed? c.reader c.rest s.2
  else some (.stop (c.reader, p) (.decode .lzwCode))
termination_by r.todo data
decreasing_by exact todo_call ‹_›

/-- A word that waits for the next piece fits it. -/
structure IsBounded (r : Reader) : Prop where
  decoder : r.decoder.HasShortWords
  waiting : r.waiting.length ≤ pieceLength

/-- What a session has on hand. -/
def Holds (s : Reader × Option Predictor) : Prop := s.1.IsBounded ∧ Predictor.AllInBounds s.2

theorem isBounded_create (earlyChange : Bool) : (create earlyChange).IsBounded :=
  ⟨Decoder.hasShortWords_start _, Nat.zero_le _⟩

theorem decoder_ready (r : Reader) (group : Group) (data : Bytes) :
    (r.ready group data).1.decoder = r.decoder ∧ (r.ready group data).1.waiting = r.waiting := by
  unfold ready takeIn refill
  split
  · dsimp only
    split
    · exact ⟨rfl, rfl⟩
    · exact ⟨rfl, rfl⟩
  · exact ⟨rfl, rfl⟩

theorem IsBounded.ready {r : Reader} (h : r.IsBounded) (group : Group) (data : Bytes) :
    (r.ready group data).1.IsBounded := by
  obtain ⟨hdecoder, hwaiting⟩ := decoder_ready r group data
  refine ⟨?_, ?_⟩
  · rw [hdecoder]
    exact h.decoder
  · rw [hwaiting]
    exact h.waiting

/-- A word fits the buffer. -/
theorem IsBounded.readCode {r : Reader} (h : r.IsBounded) :
    r.readCode.1.IsBounded ∧
      ∀ word, r.readCode.2 = .word word → word.length ≤ pieceLength := by
  obtain ⟨hdecoder, hword⟩ := h.decoder.read r.code
  refine ⟨⟨hdecoder, h.waiting⟩, fun word hmeaning => ?_⟩
  have hlength := hword word hmeaning
  have hsize := hdecoder.size
  unfold Decoder.count firstCode maxWidth at hsize
  unfold pieceLength
  omega

/-- By induction on the bits left: each code that is read leaves fewer. -/
theorem isBounded_collect {r : Reader} (h : r.IsBounded) (group : Group) {piece : Array UInt8}
    (hpiece : piece.size ≤ pieceLength) (data : Bytes) :
    (collect r group piece data).reader.IsBounded ∧
      (collect r group piece data).piece.size ≤ pieceLength := by
  induction hn : r.left data using Nat.strongRecOn generalizing r group piece data with
  | ind n ih =>
    subst hn
    have hready := h.ready group data
    obtain ⟨hnext, hword⟩ := hready.readCode
    unfold collect
    dsimp only
    split
    next => exact ⟨hready, hpiece⟩
    next hcodes =>
      have hless := Nat.lt_of_lt_of_eq (left_readCode hcodes (r.ready group data).2.2)
        (left_ready r group data)
      split
      next => exact ⟨hnext, Nat.zero_le _⟩
      next => exact ⟨⟨hnext.decoder, hnext.waiting⟩, hpiece⟩
      next => exact ⟨hnext, hpiece⟩
      next reversed hmeaning =>
        split
        next => exact ⟨⟨hnext.decoder, hword reversed hmeaning⟩, hpiece⟩
        next hroom =>
          have hwhole : (piece ++ reversed.reverse).size ≤ pieceLength := by
            rw [← Array.length_toList, Array.toList_appendList, List.length_append,
              Array.length_toList, List.length_reverse]
            exact Nat.le_of_not_lt hroom
          split
          next => exact ⟨hnext, hwhole⟩
          next => exact ih _ hless hnext _ hwhole _ rfl

theorem isBounded_call {r : Reader} (h : r.IsBounded) (data : Bytes) :
    (r.call data).reader.IsBounded ∧ (r.call data).piece.size ≤ pieceLength :=
  isBounded_collect (r := { r with waiting := [] }) ⟨h.decoder, Nat.zero_le _⟩ {}
    (by simpa using h.waiting) data

/-- A call uses no more data than there are, and its piece is cut from the buffer. -/
theorem inRange_pass_call {r : Reader} (h : r.IsBounded) (data : Bytes) {p : Option Predictor}
    (hp : Predictor.AllInBounds p) :
    Checked.sub data.length (r.call data).rest.length =
        some (data.length - (r.call data).rest.length) ∧
      Step.InRange Holds
        ((Predictor.pass? pieceLength p (r.call data).piece.toList).map
          (Step.map fun p => ((r.call data).reader, p)))
        ((Predictor.pass p (r.call data).piece.toList).map fun p => ((r.call data).reader, p)) := by
  obtain ⟨hreader, hpiece⟩ := isBounded_call h data
  refine ⟨Checked.sub_eq (Nat.le_trans (length_collect _ _ _ _) (length_ready _ _ _)), ?_⟩
  exact (Predictor.inRange_pass hp (by simpa using hpiece)).map fun p hp => ⟨hreader, hp⟩

theorem inRange_feed {r : Reader} (h : r.IsBounded) (data : Bytes) {p : Option Predictor}
    (hp : Predictor.AllInBounds p) :
    Step.InRange Holds (r.feed? data p) (r.feed data p) := by
  fun_induction Reader.feed r data p with
  | case1 r data p c hvalid out hends =>
    obtain ⟨hused, hpass⟩ := inRange_pass_call h data hp
    rw [feed?, if_pos hvalid, hused, hpass.same]
    simp only [Option.bind_eq_bind, Option.bind_some]
    rw [dif_pos hends]
    exact ⟨rfl, hpass.keeps⟩
  | case2 r data p c hvalid out hends ih =>
    obtain ⟨hused, hpass⟩ := inRange_pass_call h data hp
    rw [feed?, if_pos hvalid, hused, hpass.same]
    simp only [Option.bind_eq_bind, Option.bind_some]
    rw [dif_neg hends]
    exact Step.inRange_andThen hpass.keeps fun s hs => ih s (isBounded_call h data).1 hs.2
  | case3 r data p c hvalid =>
    rw [feed?, if_neg hvalid]
    exact Step.inRange_stop _ _

end Reader

def encodeBlock? (c : Lzw) (data : Bytes) : Option (Step Lzw) :=
  match c.encoder with
  | none => some (c.notStarted .encode)
  | some encoder => (encoder.feed? data).map (Step.map fun e => { c with encoder := some e })

def endEncode? (c : Lzw) : Option (Step Lzw) :=
  match c.encoder with
  | none => some (c.notStarted .encode)
  | some encoder => encoder.finish?.map (Step.map fun _ => { c with encoder := none })

def decodeBlock? (c : Lzw) (data : Bytes) : Option (Step Lzw) :=
  if c.finished then some (.quiet c)
  else
    match c.reader with
    | none => some (c.notStarted .decode)
    | some reader =>
      (reader.feed? data c.predictor).map (Step.map fun (reader, predictor) =>
        { c with reader := some reader, predictor }) >>= fun r => r.andThen? fun c =>
          some (.quiet { c with finished := c.reader.any Reader.finished })

def endDecode? (c : Lzw) : Option (Step Lzw) :=
  c.decodeBlock? [] >>= fun r => r.andThen? fun c =>
    let c := { c with reader := none }
    if !c.finished then some (.stop c (.decode .lzwCut))
    else some ((Predictor.close c.predictor).map fun predictor => { c with predictor })

/-- What a session in this direction has on hand fits the buffer. -/
def InBounds (direction : Direction) (c : Lzw) : Prop :=
  match direction with
  | .encode => ∀ e, c.encoder = some e → e.IsBounded
  | .decode => (∀ r, c.reader = some r → r.IsBounded) ∧ Predictor.AllInBounds c.predictor

section
variable {c : Lzw}

theorem inBounds_beginEncode (c : Lzw) : c.beginEncode.state.InBounds .encode := by
  rintro _ ⟨⟩
  exact Encoder.isBounded_create c.earlyChange

theorem ofParms_of_settings {parms : Option DecodeParms} {early : Bool} {p : Option Predictor}
    (h : settings parms = .ok (early, p)) : Predictor.ofParms parms = .ok p := by
  cases parms with
  | none =>
    cases h
    rfl
  | some parms =>
    simp only [settings] at h
    cases hearly : parms.intD "EarlyChange" 1 with
    | error e =>
      rw [hearly] at h
      cases h
    | ok n =>
      rw [hearly] at h
      cases hpredictor : Predictor.ofParms (some parms) with
      | error e =>
        rw [hpredictor] at h
        cases h
      | ok q =>
        rw [hpredictor] at h
        cases h
        rfl

theorem inBounds_beginDecode (c : Lzw) (parms : Option DecodeParms)
    (h : (c.beginDecode parms).fault = none) : (c.beginDecode parms).state.InBounds .decode := by
  revert h
  unfold beginDecode
  cases hsettings : settings parms with
  | error e => exact nofun
  | ok settings =>
    intro _
    constructor
    · rintro _ ⟨⟩
      exact Reader.isBounded_create settings.1
    · rintro p hp
      exact Predictor.inBounds_ofParms ((ofParms_of_settings hsettings).trans (congrArg _ hp))

theorem inRange_encodeBlock (h : c.InBounds .encode) (data : Bytes) :
    Step.InRange (InBounds .encode) (encodeBlock? c data) (c.encodeBlock data) := by
  unfold encodeBlock? encodeBlock
  cases hencoder : c.encoder with
  | none => exact Step.inRange_stop _ _
  | some encoder =>
    refine (Encoder.inRange_feed (h encoder hencoder) data).map fun e he => ?_
    rintro _ ⟨⟩
    exact he

theorem inRange_endEncode (h : c.InBounds .encode) :
    Step.InRange (fun _ => True) (endEncode? c) c.endEncode := by
  unfold endEncode? endEncode
  cases hencoder : c.encoder with
  | none => exact Step.inRange_stop _ _
  | some encoder => exact (Encoder.inRange_finish (h encoder hencoder)).map fun _ => id

theorem inRange_decodeBlock (h : c.InBounds .decode) (data : Bytes) :
    Step.InRange (InBounds .decode) (decodeBlock? c data) (c.decodeBlock data) := by
  obtain ⟨hreader, hpredictor⟩ := h
  unfold decodeBlock? decodeBlock
  split
  · exact Step.inRange_quiet ⟨hreader, hpredictor⟩
  · cases hr : c.reader with
    | none => exact Step.inRange_stop _ _
    | some r =>
      refine Step.InRange.andThen (P := InBounds .decode) ?_ fun s hs => Step.inRange_quiet hs
      refine (Reader.inRange_feed (hreader r hr) data hpredictor).map fun s hs => ⟨?_, hs.2⟩
      rintro _ ⟨⟩
      exact hs.1

theorem inRange_endDecode (h : c.InBounds .decode) :
    Step.InRange (fun _ => True) (endDecode? c) c.endDecode := by
  refine (inRange_decodeBlock h []).andThen fun s _ => ⟨?_, fun _ => trivial⟩
  dsimp only
  split <;> rfl

end
end PdfStream.Lzw
