import PdfStream.Lzw
import PdfStream.Proofs.Bits
import PdfStream.Proofs.Coder

/-!
What an encoder makes of its data. Without a piece and with all bits held back, an encoder is a
plain fold over the data; moving bits into the piece and writing it out does not change which bits
there are.
-/
namespace PdfStream
namespace Lzw
namespace Encoder

/-- The encoder with more bits in front of those it holds, and no piece. -/
def behind (bits : List Bool) (e : Encoder) : Encoder :=
  { e with held := bits ++ e.held, piece := #[] }

/-- The encoder with the bits of its piece still held back. -/
def flat (e : Encoder) : Encoder := e.behind (Bits.ofBytes .highFirst e.piece.toList)

theorem behind_behind (bits bits' : List Bool) (e : Encoder) :
    (e.behind bits').behind bits = e.behind (bits ++ bits') := by
  simp only [behind, List.append_assoc]

theorem flat_of_no_piece {e : Encoder} (h : e.piece = #[]) : e.flat = e := by
  obtain ⟨early, width, count, current, children, fanout, held, piece⟩ := e
  cases h
  rfl

theorem behind_nil {e : Encoder} (h : e.piece = #[]) : e.behind [] = e := by
  obtain ⟨early, width, count, current, children, fanout, held, piece⟩ := e
  cases h
  rfl

theorem emit_behind (bits : List Bool) (e : Encoder) (code : Nat) :
    (e.behind bits).emit code = (e.emit code).behind bits := by
  simp only [behind, emit, List.append_assoc]

theorem learn_behind (bits : List Bool) (e : Encoder) (parent : Nat) (b : UInt8) :
    (e.behind bits).learn parent b = (e.learn parent b).behind bits := rfl

theorem widen_behind (bits : List Bool) (e : Encoder) (limit : Nat) :
    (e.behind bits).widen limit = (e.widen limit).behind bits := by
  unfold widen
  by_cases h : limit < e.count + e.early ∧ e.width < maxWidth
  · rw [if_pos h]
    exact if_pos h
  · rw [if_neg h]
    exact if_neg h

theorem clearIfFull_behind (bits : List Bool) (e : Encoder) :
    (e.behind bits).clearIfFull = e.clearIfFull.behind bits := by
  unfold clearIfFull
  by_cases h : 1 <<< maxWidth < e.count
  · rw [if_pos h, emit_behind]
    exact if_pos h
  · rw [if_neg h]
    exact if_neg h

theorem extend_of_start {e : Encoder} (h : e.current = none) (b : UInt8) :
    e.extend b = { e with current := some b.toNat } := by
  rw [extend, h]

theorem extend_of_known {e : Encoder} {word code : Nat} (h : e.current = some word) {b : UInt8}
    (hchild : e.children[(word, b)]? = some code) :
    e.extend b = { e with current := some code } := by
  simp only [extend, h, hchild]

/-- The word is written and continued by a byte; the byte starts the next word. -/
def turn (e : Encoder) (word : Nat) (b : UInt8) : Encoder :=
  { (e.learn word b).emit word with current := some b.toNat }

theorem extend_of_new {e : Encoder} {word : Nat} (h : e.current = some word) {b : UInt8}
    (hchild : e.children[(word, b)]? = none) :
    e.extend b = ((e.turn word b).widen (1 <<< e.width)).clearIfFull := by
  simp only [extend, h, hchild]
  rfl

theorem turn_behind (bits : List Bool) (e : Encoder) (word : Nat) (b : UInt8) :
    (e.behind bits).turn word b = (e.turn word b).behind bits := by
  rw [turn, learn_behind, emit_behind]
  rfl

/-- Reading on looks at neither the bits held back nor the piece. -/
theorem extend_behind (bits : List Bool) (e : Encoder) (b : UInt8) :
    (e.behind bits).extend b = (e.extend b).behind bits := by
  have hcurrent : (e.behind bits).current = e.current := rfl
  have hchildren : (e.behind bits).children = e.children := rfl
  cases hc : e.current with
  | none =>
    rw [extend_of_start hc, extend_of_start (hcurrent.trans hc)]
    rfl
  | some word =>
    cases hchild : e.children[(word, b)]? with
    | some code =>
      rw [extend_of_known hc hchild, extend_of_known (hcurrent.trans hc) hchild]
      rfl
    | none =>
      rw [extend_of_new hc hchild, extend_of_new (hcurrent.trans hc) hchild, turn_behind,
        ← clearIfFull_behind, ← widen_behind]
      rfl

/-- Reading all the data, with all bits held back. -/
def extendAll (e : Encoder) (data : Bytes) : Encoder := data.foldl extend e

theorem extendAll_append (e : Encoder) (xs ys : Bytes) :
    e.extendAll (xs ++ ys) = (e.extendAll xs).extendAll ys := List.foldl_append

theorem extendAll_behind (bits : List Bool) (e : Encoder) (data : Bytes) :
    (e.behind bits).extendAll data = (e.extendAll data).behind bits := by
  induction data generalizing e with
  | nil => rfl
  | cons b data ih =>
    show ((e.behind bits).extend b).extendAll data = ((e.extend b).extendAll data).behind bits
    rw [extend_behind, ih]

/-- The encoder when the last word is written. -/
def last (e : Encoder) : Encoder :=
  match e.current with
  | none => e
  | some word => (e.emit word).widen (1 <<< e.width - 1)

/-- All bits at the end of the data, the end code included. -/
def closing (e : Encoder) : List Bool := (e.last.emit endCode).held

theorem closing_behind (bits : List Bool) (e : Encoder) :
    (e.behind bits).closing = bits ++ e.closing := by
  have hlast (d d' : Encoder) (h : d' = d.behind bits) :
      (d'.emit endCode).held = bits ++ (d.emit endCode).held := by
    rw [h, emit_behind]
    rfl
  unfold closing
  apply hlast
  unfold last
  have hcurrent : (e.behind bits).current = e.current := rfl
  rw [hcurrent]
  cases e.current with
  | none => rfl
  | some word =>
    dsimp only
    rw [emit_behind, widen_behind]
    rfl

/-- What encoding makes of the data. -/
def encoded (e : Encoder) (data : Bytes) : Bytes :=
  Bits.packAll .highFirst (e.extendAll data).closing

theorem output?_finish (e : Encoder) : e.finish.output? = some (encoded e []) := by
  have hfinish : e.finish = .write { e.last with held := [] } (encoded e []) := by
    simp only [finish, encoded, Bits.packAll]
    rfl
  rw [hfinish, Step.output?_write]

theorem flat_move {e : Encoder} {count : Nat} (h : count ≤ e.bytesHeld) :
    (e.move count).flat = e.flat := by
  have hlong : (e.held.take (8 * count)).length = 8 * count := by
    rw [List.length_take]
    unfold bytesHeld at h
    omega
  have hwhole : (e.held.take (8 * count)).length % 8 = 0 := by omega
  have hnone := Bits.pack_whole .highFirst hwhole
  have hall := Bits.ofBytes_pack .highFirst (e.held.take (8 * count))
  rw [hnone, List.append_nil] at hall
  have hpiece : (e.move count).piece.toList =
      e.piece.toList ++ (Bits.pack .highFirst (e.held.take (8 * count))).1 := by simp [move]
  have hheld : Bits.ofBytes .highFirst (e.move count).piece.toList ++ (e.move count).held =
      Bits.ofBytes .highFirst e.piece.toList ++ e.held := by
    have hrest : (e.move count).held = e.held.drop (8 * count) := rfl
    rw [hpiece, hrest, Bits.ofBytes_append, hall, List.append_assoc, List.take_append_drop]
  rw [flat, behind, hheld]
  rfl

theorem flat_settle (e : Encoder) : e.settle.flat = e.flat := by
  unfold settle
  split
  · exact flat_move (Nat.min_le_left _ _)
  · rfl

/-- A step that takes `data` in and loses no bits. -/
structure Takes (e : Encoder) (data : Bytes) (r : Step Encoder) : Prop where
  no_fault : r.fault = none
  flat : e.flat.extendAll data = r.state.flat.behind (Bits.ofBytes .highFirst r.bytes)

theorem Takes.andThen {e : Encoder} {xs ys : Bytes} {r : Step Encoder} {f : Encoder → Step Encoder}
    (h : Takes e xs r) (h' : Takes r.state ys (f r.state)) : Takes e (xs ++ ys) (r.andThen f) := by
  refine ⟨(Step.fault_andThen h.no_fault f).trans h'.no_fault, ?_⟩
  rw [Step.state_andThen h.no_fault, Step.bytes_andThen h.no_fault, extendAll_append, h.flat,
    extendAll_behind, h'.flat, behind_behind, Bits.ofBytes_append]

theorem takes_writePiece (e : Encoder) : Takes e [] e.writePiece := by
  refine ⟨rfl, ?_⟩
  have hbytes : e.writePiece.bytes = e.piece.toList := Step.bytes_write _ _
  have hstate : e.writePiece.state.flat = { e with piece := #[] } := flat_of_no_piece rfl
  rw [hbytes, hstate]
  rfl

theorem takes_settle {e : Encoder} {data : Bytes} {r : Step Encoder} (h : Takes e.settle data r) :
    Takes e data r := by
  obtain ⟨hfault, hflat⟩ := h
  rw [flat_settle] at hflat
  exact ⟨hfault, hflat⟩

theorem piece_extend (e : Encoder) (b : UInt8) : (e.extend b).piece = e.piece := by
  have hwiden (d : Encoder) (limit : Nat) : (d.widen limit).piece = d.piece := by
    unfold widen
    split <;> rfl
  have hclear (d : Encoder) : d.clearIfFull.piece = d.piece := by
    unfold clearIfFull
    split <;> rfl
  cases hc : e.current with
  | none => rw [extend_of_start hc]
  | some word =>
    cases hchild : e.children[(word, b)]? with
    | some code => rw [extend_of_known hc hchild]
    | none =>
      rw [extend_of_new hc hchild, hclear, hwiden]
      rfl

theorem takes_extend (e : Encoder) (b : UInt8) : Takes e [b] (.quiet (e.settle.extend b)) := by
  apply takes_settle
  refine ⟨rfl, ?_⟩
  have hflat : (e.settle.extend b).flat = e.settle.flat.extend b := by
    rw [flat, flat, piece_extend, extend_behind]
  rw [Step.state_quiet, Step.bytes_quiet, hflat]
  exact (behind_nil (piece_extend _ b)).symm

theorem takes_addByte (e : Encoder) (b : UInt8) : Takes e [b] (e.addByte b) := by
  unfold addByte
  split
  · have hwrite := takes_settle (takes_writePiece e.settle)
    rw [Step.map_eq_andThen rfl]
    exact hwrite.andThen (f := fun e => .quiet (e.settle.extend b)) (takes_extend _ b)
  · exact takes_extend e b

theorem takes_nil (e : Encoder) : Takes e [] (.quiet e) := ⟨rfl, (behind_nil rfl).symm⟩

theorem takes_run (e : Encoder) (data : Bytes) : Takes e data (Step.run addByte e data) := by
  induction data generalizing e with
  | nil => exact takes_nil e
  | cons b data ih =>
    have hbyte := takes_addByte e b
    rw [Step.run_cons]
    exact hbyte.andThen (ih _)

theorem takes_feed (e : Encoder) (data : Bytes) : Takes e data (e.feed data) := by
  unfold feed
  split
  next hnil =>
    rw [hnil]
    exact takes_nil e
  next =>
    have hrest := (takes_run e data).andThen (f := fun e => e.settle.writePiece)
      (takes_settle (takes_writePiece _))
    rwa [List.append_nil] at hrest

/-- Between two blocks there is no piece. -/
theorem piece_feed {e : Encoder} (h : e.piece = #[]) (data : Bytes) :
    (e.feed data).state.piece = #[] := by
  unfold feed
  split
  · exact h
  · rw [Step.state_andThen (takes_run e data).no_fault]
    rfl

/-- A block writes the front of what there will be. -/
theorem encoded_append {e : Encoder} (h : e.piece = #[]) (data rest : Bytes) :
    encoded e (data ++ rest) = (e.feed data).bytes ++ encoded (e.feed data).state rest := by
  have hflat := (takes_feed e data).flat
  rw [flat_of_no_piece h, flat_of_no_piece (piece_feed h data)] at hflat
  rw [encoded, extendAll_append, hflat, extendAll_behind, closing_behind, Bits.packAll_append]
  rfl

end Encoder

def encoding : Coder Lzw := ⟨fun data c => c.encodeBlock data, endEncode⟩

/-- What an encode session makes of the data. -/
def encoded (c : Lzw) (data : Bytes) : Option Bytes := c.encoder.map (·.encoded data)

/-- No piece is open. -/
def IsEncoding (c : Lzw) : Prop := ∀ e, c.encoder = some e → e.piece = #[]

theorem encoding_computes {c : Lzw} (hc : c.IsEncoding) : encoding.Computes c (encoded c) := by
  refine Coder.computes_of_meaning IsEncoding encoded ?_ ?_ ?_ hc
  · intro c data hc hfault
    simp only [encoding, encodeBlock] at hfault ⊢
    cases he : c.encoder with
    | none =>
      rw [he] at hfault
      cases hfault
    | some e =>
      rintro e' ⟨⟩
      exact Encoder.piece_feed (hc e he) data
  · intro c data rest hc
    simp only [encoding, encodeBlock, encoded]
    cases he : c.encoder with
    | none => rfl
    | some e =>
      have hfeed := Step.output?_of_no_fault (Encoder.takes_feed e data).no_fault
      simp only [Option.map_some, Step.output?_map, hfeed, Option.bind_some, Step.state_map,
        Encoder.encoded_append (hc e he)]
  · intro c hc
    simp only [encoding, endEncode, encoded]
    cases he : c.encoder with
    | none => rfl
    | some e => exact e.output?_finish

theorem isEncoding_beginEncode (c : Lzw) : c.beginEncode.state.IsEncoding := by
  rintro e ⟨⟩
  rfl

end Lzw
end PdfStream
