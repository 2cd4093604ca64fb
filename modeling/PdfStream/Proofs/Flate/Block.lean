import PdfStream.Proofs.Flate.Tables

/-!
Blocks read bit by bit. Each part of a block takes the reader on by its bits and brings the data that
it stands for.
-/
namespace PdfStream.Flate

theorem IsCopy.getElem?_eq {history chunk : Bytes} {distance : Nat} (h : IsCopy history distance chunk)
    {k : Nat} (hk : k < chunk.length) :
    chunk[k]? = history[history.length - distance + k % distance]? := by
  have hpos := h.pos
  have hnear := h.near
  induction k using Nat.strongRecOn with
  | ind k ih =>
    have hsame := h.same k hk
    rw [List.getElem?_append_right (Nat.le_add_right _ _), Nat.add_sub_cancel_left] at hsame
    rw [hsame]
    by_cases hfirst : k < distance
    · rw [List.getElem?_append_left (by omega), Nat.mod_eq_of_lt hfirst]
      congr 1
      omega
    · have hplace : history.length + k - distance - history.length = k - distance := by omega
      rw [List.getElem?_append_right (by omega), hplace, ih (k - distance) (by omega) (by omega),
        ← Nat.mod_eq_sub_mod (Nat.le_of_not_lt hfirst)]

namespace Inflate

/-- A copy brings the bytes that are to be repeated. -/
theorem lookBack_eq {history : Array UInt8} {chunk : Bytes} {distance : Nat}
    (h : IsCopy history.toList distance chunk) : lookBack history chunk.length distance = chunk := by
  apply List.ext_getElem
  · rw [lookBack, List.length_map, List.length_range]
  · intro k _ hk
    have hbyte := h.getElem?_eq hk
    rw [List.getElem?_eq_getElem hk, Array.getElem?_toList, Array.length_toList] at hbyte
    simp only [lookBack, List.getElem_map, List.getElem_range]
    rw [Array.getD_eq_getD_getElem?, ← hbyte, Option.getD_some]

theorem copy_eq {s : Inflate} {chunk : Bytes} {distance : Nat}
    (h : IsCopy s.history.toList distance chunk) : s.copy chunk.length distance =
      (s.emit chunk).andThen fun s => .quiet s.nextLiteral := by
  have hpos := h.pos
  have hnear := h.near
  rw [Array.length_toList] at hnear
  rw [copy, if_neg (by omega), lookBack_eq h]

/-- Data written inside a block leave the reader at its next symbol. -/
theorem nextLiteral_took (s : Inflate) (codes : Codes) (count : Nat) (stage : Stage)
    (value got : Nat) (data : Bytes) :
    ((((s.inCodes codes).moved count).amid stage value got).took data).nextLiteral =
      ((s.moved count).took data).inCodes codes := rfl

theorem took_nil (s : Inflate) : s.took [] = s := by
  simp [took, Adler.add]

theorem took_inCodes (s : Inflate) (codes : Codes) (m n : Nat) (data : Bytes) :
    (((s.moved m).took data).inCodes codes).moved n =
      ((s.inCodes codes).moved (m + n)).took data := by
  rw [← moved_moved]
  rfl

section
variable {codes : Codes} (hroom : codes.HaveRoom)
include hroom

theorem run_literalWord (s : Inflate) {symbol : Nat} {word : List Bool}
    (hword : IsWord codes.literals symbol word) :
    ∃ stage, Step.run readBit (s.inCodes codes) word =
      (((s.inCodes codes).moved word.length).amid stage 0 0).readLiteral symbol :=
  run_word (s.inCodes codes) .literal hroom.literals hword

theorem reads_literal (s : Inflate) {b : UInt8} {word : List Bool}
    (hword : IsWord codes.literals b.toNat word) : (s.inCodes codes).Reads word
      (((s.moved word.length).took [b]).inCodes codes) [b] := by
  obtain ⟨stage, hrun⟩ := run_literalWord hroom s hword
  rw [readLiteral, if_pos b.toNat_lt, UInt8.ofNat_toNat] at hrun
  exact reads_of_emit hrun (congrArg Step.quiet (nextLiteral_took s codes _ stage 0 0 [b]))

/-- The word that ends a block. -/
theorem reads_blockEnd (s : Inflate) {word : List Bool} (hword : IsWord codes.literals 256 word) :
    (s.inCodes codes).Reads word ((s.inCodes codes).moved word.length).endBlock [] := by
  obtain ⟨stage, hrun⟩ := run_literalWord hroom s hword
  rw [readLiteral, if_neg (by decide), if_pos rfl, endBlock_amid] at hrun
  exact reads_of_quiet hrun

/-- The symbol of a length, and its extra bits. -/
theorem reads_length (s : Inflate) {length : Nat} {bits : List Bool}
    (h : IsNumber lengthRanges codes.literals 257 length bits) :
    (s.inCodes codes).Reads bits (((s.inCodes codes).moved bits.length).goto
      (.symbol (.ofWords (Huffman.words codes.distances)) (.distance length))) [] := by
  cases h with
  | @intro i base extra word hrange hlow hhigh hword =>
    obtain ⟨stage, hrun⟩ := run_literalWord hroom s hword
    rw [readLiteral, if_neg (by omega), if_neg (by omega), Nat.add_sub_cancel_left, hrange] at hrun
    rw [List.length_append, Bits.length_lowFirst]
    cases extra with
    | zero =>
      have hbase : base = length := by omega
      rw [hbase] at hrun
      rw [Bits.lowFirst, List.append_nil, Nat.add_zero]
      exact reads_of_quiet hrun
    | succ extra =>
      have hvalue : base + (length - base) = length := by omega
      obtain ⟨value, got, hextra⟩ := run_lowFirst ((s.inCodes codes).moved word.length)
        (.lengthExtra base) (Nat.succ_ne_zero extra) (n := length - base) (by omega)
      rw [readField, hvalue, moved_moved] at hextra
      exact (reads_of_quiet hrun).append (reads_of_quiet hextra)

/-- The symbol of a distance, and its extra bits. -/
theorem run_distance (s : Inflate) (length : Nat) {distance : Nat} {bits : List Bool}
    (h : IsNumber distanceRanges codes.distances 0 distance bits) :
    ∃ stage value got, Step.run readBit
        (s.goto (.symbol (.ofWords (Huffman.words codes.distances)) (.distance length))) bits =
      ((s.moved bits.length).amid stage value got).copy length distance := by
  cases h with
  | @intro i base extra word hrange hlow hhigh hword =>
    rw [Nat.zero_add] at hword
    obtain ⟨stage, hrun⟩ := run_word s (.distance length) hroom.distances hword
    rw [readSymbol, readDistance, hrange] at hrun
    rw [List.length_append, Bits.length_lowFirst]
    cases extra with
    | zero =>
      have hbase : base = distance := by omega
      rw [hbase] at hrun
      rw [Bits.lowFirst, List.append_nil]
      exact ⟨stage, 0, 0, hrun⟩
    | succ extra =>
      have hvalue : base + (distance - base) = distance := by omega
      obtain ⟨value, got, hextra⟩ := run_lowFirst (s.moved word.length)
        (.distanceExtra length base) (Nat.succ_ne_zero extra) (n := distance - base) (by omega)
      have hsymbol : Step.run readBit (s.goto (.symbol (.ofWords (Huffman.words codes.distances))
          (.distance length))) word = .quiet ((s.moved word.length).goto
            (.number (extra + 1) (.distanceExtra length base))) := hrun
      rw [readField, hvalue, moved_moved] at hextra
      rw [Step.run_append, hsymbol, Step.quiet_andThen, hextra]
      exact ⟨_, value, got, rfl⟩

theorem reads_reference (s : Inflate) {distance : Nat} {chunk : Bytes}
    {lengthBits distanceBits : List Bool}
    (hlength : IsNumber lengthRanges codes.literals 257 chunk.length lengthBits)
    (hdistance : IsNumber distanceRanges codes.distances 0 distance distanceBits)
    (hcopy : IsCopy s.history.toList distance chunk) :
    (s.inCodes codes).Reads (lengthBits ++ distanceBits)
      (((s.moved (lengthBits ++ distanceBits).length).took chunk).inCodes codes) chunk := by
  obtain ⟨stage, value, got, hrun⟩ := run_distance hroom
    ((s.inCodes codes).moved lengthBits.length) chunk.length hdistance
  rw [moved_moved, ← List.length_append, copy_eq (by exact hcopy)] at hrun
  exact (reads_length hroom s hlength).append
    (reads_of_emit hrun (congrArg Step.quiet (nextLiteral_took s codes _ stage value got chunk)))

/-- By induction on what the bits stand for: each part is read from where the one before it has left
the reader. -/
theorem reads_coded {history data : Bytes} {bits : List Bool}
    (h : IsCoded codes history bits data) (s : Inflate) (hhistory : s.history.toList = history) :
    (s.inCodes codes).Reads bits
      (((s.inCodes codes).moved bits.length).took data).endBlock data := by
  induction h generalizing s with
  | ending hword =>
    rw [took_nil]
    exact reads_blockEnd hroom s hword
  | @literal history b word bits data hword hrest ih =>
    have hboth := (reads_literal hroom s hword).append
      (ih ((s.moved word.length).took [b]) (by simp [took, moved, hhistory]))
    rwa [took_inCodes, took_took, ← List.length_append] at hboth
  | @reference history distance chunk lengthBits distanceBits bits data hlength hdistance hcopy hrest
      ih =>
    subst hhistory
    have hboth := (reads_reference hroom s hlength hdistance hcopy).append
      (ih ((s.moved (lengthBits ++ distanceBits).length).took chunk) (by simp [took, moved]))
    rwa [took_inCodes, took_took, ← List.length_append] at hboth

end

theorem readField_storedLength (s : Inflate) {size : Nat} (hsize : size ≤ 65535) (pad : List Bool) :
    s.readField (.storedLength pad.length) (Bits.ofLowFirst (pad ++
        (Bits.lowFirst 16 size ++ Bits.lowFirst 16 (65535 - size)))) =
      .quiet (if size = 0 then s.endBlock else s.goto (.number 8 (.storedByte size))) := by
  have hboth : Bits.ofLowFirst (Bits.lowFirst 16 size ++ Bits.lowFirst 16 (65535 - size)) =
      size + 65536 * (65535 - size) := by
    rw [Bits.ofLowFirst_append, Bits.length_lowFirst, Bits.ofLowFirst_lowFirst (by omega),
      Bits.ofLowFirst_lowFirst (by omega)]
    rfl
  have hlow : (size + 65536 * (65535 - size)) % 65536 = size := by omega
  have hhigh : (size + 65536 * (65535 - size)) / 65536 = 65535 - size := by omega
  have hsum : ¬size + (65535 - size) ≠ 65535 := by omega
  rw [readField, Bits.ofLowFirst_append_shiftRight, hboth, hlow, hhigh, if_neg hsum]
  split <;> rfl

/-- The bits up to the next byte, and the size twice. -/
theorem reads_storedLength (s : Inflate) {size : Nat} (hsize : size ≤ 65535) (pad : List Bool) :
    (s.goto (.number (pad.length + 32) (.storedLength pad.length))).Reads
      (pad ++ (Bits.lowFirst 16 size ++ Bits.lowFirst 16 (65535 - size)))
      (if size = 0 then (s.moved (pad.length + 32)).endBlock
        else (s.moved (pad.length + 32)).goto (.number 8 (.storedByte size))) [] := by
  have hfield (t : Inflate) := readField_storedLength t hsize pad
  generalize hbits : pad ++ (Bits.lowFirst 16 size ++ Bits.lowFirst 16 (65535 - size)) = bits at hfield ⊢
  have hlength : bits.length = pad.length + 32 := by
    rw [← hbits, List.length_append, List.length_append, Bits.length_lowFirst,
      Bits.length_lowFirst]
  have hne : bits ≠ [] := by
    rw [← List.length_pos_iff, hlength]
    exact Nat.succ_pos _
  obtain ⟨value, got, hrun⟩ := run_number s (.storedLength pad.length) hne
  rw [hlength, hfield, endBlock_amid, goto_amid] at hrun
  exact reads_of_quiet hrun

theorem reads_storedBytes (s : Inflate) {data : Bytes} (hne : data ≠ []) :
    (s.goto (.number 8 (.storedByte data.length))).Reads (Bits.ofBytes .lowFirst data)
      ((s.moved (8 * data.length)).took data).endBlock data := by
  induction data generalizing s with
  | nil => exact absurd rfl hne
  | cons b data ih =>
    obtain ⟨value, got, hrun⟩ := run_lowFirst s (.storedByte (b :: data).length) (Nat.succ_ne_zero 7)
      b.toNat_lt
    rw [readField, UInt8.ofNat_toNat] at hrun
    rw [Bits.ofBytes_cons]
    by_cases hlast : data = []
    · subst hlast
      exact reads_of_emit hrun rfl
    · have hmore : ¬(b :: data).length ≤ 1 := by
        have hpositive := List.length_pos_iff.2 hlast
        rw [List.length_cons]
        omega
      simp only [if_neg hmore] at hrun
      have hbyte : (s.goto (.number 8 (.storedByte (b :: data).length))).Reads
          (Bits.Order.lowFirst.ofByte b)
          (((s.moved 8).took [b]).goto (.number 8 (.storedByte data.length))) [b] :=
        reads_of_emit hrun rfl
      have hboth := hbyte.append (ih ((s.moved 8).took [b]) hlast)
      have hmoved : (((s.moved 8).took [b]).moved (8 * data.length)).took data =
          (s.moved (8 * (b :: data).length)).took (b :: data) := by
        have hcount : 8 * (b :: data).length = 8 + 8 * data.length := by
          rw [List.length_cons]
          omega
        rw [hcount, ← moved_moved, ← List.singleton_append (l := data), ← took_took]
        rfl
      rwa [hmoved] at hboth

/-- The reader inside a block. -/
def inBlock (s : Inflate) (last : Bool) : Inflate := { s with lastBlock := last }

/-- The first bit of a block tells whether it is the last, two more how it is written. -/
theorem reads_blockHeader {s t : Inflate} {last low high : Bool}
    (h : ∀ value got, ((s.moved 3).amid (.number 3 .blockHeader) value got).readBlockHeader
      (Bits.ofLowFirst [last, low, high]) = .quiet t) :
    (s.goto (.number 3 .blockHeader)).Reads [last, low, high] t [] := by
  obtain ⟨value, got, hrun⟩ := run_number s .blockHeader (List.cons_ne_nil last [low, high])
  exact reads_of_quiet (hrun.trans (h value got))

theorem reads_storedHeader (s : Inflate) (last : Bool) :
    (s.goto (.number 3 .blockHeader)).Reads [last, false, false]
      (((s.moved 3).inBlock last).goto (.number ((s.moved 3).toBoundary + 32)
        (.storedLength (s.moved 3).toBoundary))) [] :=
  reads_blockHeader fun _ _ => by cases last <;> rfl

theorem reads_fixedHeader (s : Inflate) (last : Bool) :
    (s.goto (.number 3 .blockHeader)).Reads [last, true, false]
      (((s.moved 3).inBlock last).inCodes .fixed) [] :=
  reads_blockHeader fun _ _ => by cases last <;> rfl

theorem reads_dynamicHeader (s : Inflate) (last : Bool) :
    (s.goto (.number 3 .blockHeader)).Reads [last, false, true]
      (((s.moved 3).inBlock last).goto (.number 14 .tableSizes)) [] :=
  reads_blockHeader fun _ _ => by cases last <;> rfl

/-- Where a reader stands behind a block. -/
structure IsPast (s t : Inflate) (last : Bool) (count : Nat) (data : Bytes) : Prop where
  lastBlock : t.lastBlock = last
  offset : t.offset = (s.offset + count) % 8
  history : t.history = s.history ++ data
  checksum : t.checksum = s.checksum.add data

theorem reads_storedBlock (s : Inflate) (last : Bool) {pad : List Bool} {data : Bytes}
    (hpad : pad.length = (s.moved 3).toBoundary) (hsize : data.length ≤ 65535) :
    ∃ t : Inflate, (s.goto (.number 3 .blockHeader)).Reads ([last, false, false] ++
        (pad ++ (Bits.lowFirst 16 data.length ++ Bits.lowFirst 16 (65535 - data.length))) ++
        Bits.ofBytes .lowFirst data) t.endBlock data ∧
      IsPast s t last (3 + (pad.length + 32) + 8 * data.length) data := by
  have hheader := reads_storedHeader s last
  rw [← hpad] at hheader
  have hlength := hheader.append (reads_storedLength ((s.moved 3).inBlock last) hsize pad)
  by_cases hempty : data = []
  · subst hempty
    rw [List.length_nil, if_pos rfl] at hlength
    refine ⟨_, hlength.append (Step.yields_quiet _), rfl, ?_, ?_, rfl⟩
    · show ((s.offset + 3) % 8 + (pad.length + 32)) % 8 = _
      rw [List.length_nil]
      omega
    · exact Array.appendList_nil.symm
  · rw [if_neg (by simpa using hempty)] at hlength
    have hbytes := reads_storedBytes (((s.moved 3).inBlock last).moved (pad.length + 32)) hempty
    refine ⟨_, hlength.append hbytes, rfl, ?_, rfl, rfl⟩
    show (((s.offset + 3) % 8 + (pad.length + 32)) % 8 + 8 * data.length) % 8 = _
    omega

/-- A block takes the reader to its end. -/
theorem reads_block {s : Inflate} {offset : Nat} (hoffset : s.offset = offset % 8) {last : Bool}
    {bits : List Bool} {data : Bytes} (h : IsBlock offset s.history.toList last bits data) :
    ∃ t : Inflate, (s.goto (.number 3 .blockHeader)).Reads bits t.endBlock data ∧
      IsPast s t last bits.length data := by
  cases h with
  | @stored pad data hpad hwhole hsize =>
    have hboundary : pad.length = (s.moved 3).toBoundary := by
      show pad.length = (8 - (s.offset + 3) % 8) % 8
      omega
    obtain ⟨t, hreads, hpast⟩ := reads_storedBlock s last hboundary hsize
    have hcount : ([last, false, false] ++ pad ++ Bits.lowFirst 16 data.length ++
        Bits.lowFirst 16 (65535 - data.length) ++ Bits.ofBytes .lowFirst data).length =
        3 + (pad.length + 32) + 8 * data.length := by
      simp [Bits.length_ofBytes]
      omega
    refine ⟨t, ?_, hcount ▸ hpast⟩
    simpa only [List.append_assoc] using hreads
  | @fixed bits data hcoded =>
    have hbody := reads_coded Codes.haveRoom_fixed hcoded ((s.moved 3).inBlock last) rfl
    refine ⟨_, (reads_fixedHeader s last).append hbody, rfl, ?_, rfl, rfl⟩
    show ((s.offset + 3) % 8 + bits.length) % 8 = _
    simp only [List.length_append, List.length_cons, List.length_nil]
    omega
  | @dynamic codes tables bits data htables hcoded =>
    obtain ⟨sizes, code, lengths, hreads⟩ := reads_tables htables ((s.moved 3).inBlock last)
    have hbody := reads_coded htables.haveRoom hcoded
      ((((s.moved 3).inBlock last).moved tables.length).inLengths sizes code lengths) rfl
    refine ⟨_, ((reads_dynamicHeader s last).append hreads).append hbody, rfl, ?_, rfl, rfl⟩
    show (((s.offset + 3) % 8 + tables.length) % 8 + bits.length) % 8 = _
    simp only [List.length_append, List.length_cons, List.length_nil]
    omega

end Inflate
end PdfStream.Flate
