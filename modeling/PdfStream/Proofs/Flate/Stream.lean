import PdfStream.Proofs.Flate.Block

/-!
Whole streams read bit by bit: header, blocks and checksum. The reader gives back the data that the
stream stands for, and needs all of it: the stream ends with the last bit of the checksum.
-/
namespace PdfStream.Flate

theorem adler32_lt (data : Bytes) : adler32 data < 1 <<< (8 * 4) := by
  have hpow : 1 <<< (8 * 4) = 65536 * 65536 := rfl
  have hhigh := Nat.mod_lt (data.inits.tail.map fun front : Bytes =>
    (1 + (front.map UInt8.toNat).sum) % 65521).sum (Nat.succ_pos 65520)
  have hlow := Nat.mod_lt (1 + (data.map UInt8.toNat).sum) (Nat.succ_pos 65520)
  rw [adler32, hpow]
  dsimp only
  omega

namespace Inflate

theorem reads_header {method flags : UInt8} (h : IsHeader method flags) :
    ({} : Inflate).Reads (Bits.ofBytes .lowFirst [method, flags])
      ((({} : Inflate).moved 16).goto (.number 3 .blockHeader)) [] := by
  have hne : Bits.ofBytes .lowFirst [method, flags] ≠ [] := by
    rw [← List.length_pos_iff, Bits.length_ofBytes]
    exact Nat.succ_pos _
  have hvalue : Bits.ofLowFirst (Bits.ofBytes .lowFirst [method, flags]) =
      flags.toNat * 256 + method.toNat := by
    rw [Bits.ofLowFirst_ofBytes]
    simp [Bytes.toNat]
  have hmethod := method.toNat_lt
  have hlow : (flags.toNat * 256 + method.toNat) % 256 = method.toNat := by omega
  have hhigh : (flags.toNat * 256 + method.toNat) / 256 = flags.toNat := by omega
  obtain ⟨value, got, hrun⟩ := run_number {} .zlibHeader hne
  rw [Bits.length_ofBytes, hvalue, readField, readHeader, hlow, hhigh] at hrun
  apply reads_of_quiet
  refine hrun.trans (if_pos ⟨h.check, h.plain, h.deflate, h.window⟩)

theorem readField_checksum {s : Inflate} {data : Bytes} (hsum : s.checksum.value = adler32 data)
    (pad : List Bool) : s.readField (.checksum pad.length) (Bits.ofLowFirst (pad ++
        Bits.ofBytes .lowFirst (Bytes.ofNat 4 (adler32 data)))) = .quiet (s.goto .finished) := by
  have hlength : (Bytes.ofNat 4 (adler32 data)).reverse.length = 4 := by
    rw [List.length_reverse, Bytes.length_ofNat]
  have hbytes := Bytes.ofNat_toNat (Bytes.ofNat 4 (adler32 data)).reverse
  rw [hlength] at hbytes
  rw [readField, Bits.ofLowFirst_append_shiftRight, Bits.ofLowFirst_ofBytes, hbytes,
    List.reverse_reverse, Bytes.toNat_ofNat, Nat.mod_eq_of_lt (adler32_lt data)]
  exact if_pos hsum.symm

/-- Behind the last block, the rest of its last byte and the checksum end the stream. -/
theorem delimits_checksum {t : Inflate} (hlast : t.lastBlock = true) {pad : List Bool}
    (hpad : pad.length = t.toBoundary) {data : Bytes} (hsum : t.checksum.value = adler32 data) :
    Delimits t.endBlock.scan (pad ++ Bits.ofBytes .lowFirst (Bytes.ofNat 4 (adler32 data))) [] := by
  have hend : t.endBlock = t.goto (.number (t.toBoundary + 32) (.checksum t.toBoundary)) :=
    if_pos hlast
  have hfield (u : Inflate) (hu : u.checksum = t.checksum) :=
    readField_checksum (s := u) (by rw [hu, hsum]) pad
  have hlength : (pad ++ Bits.ofBytes .lowFirst (Bytes.ofNat 4 (adler32 data))).length =
      pad.length + 32 := by
    rw [List.length_append, Bits.length_ofBytes, Bytes.length_ofNat]
  generalize pad ++ Bits.ofBytes .lowFirst (Bytes.ofNat 4 (adler32 data)) = bits at hfield hlength ⊢
  have hne : bits ≠ [] := by
    rw [← List.length_pos_iff, hlength]
    exact Nat.succ_pos _
  obtain ⟨value, got, hrun⟩ := run_number t (.checksum pad.length) hne
  rw [hlength] at hrun
  rw [hend, ← hpad]
  exact delimits_number hlength (reads_of_quiet (hrun.trans (hfield _ rfl))) rfl

/-- By induction on the blocks: each is read from where the one before it has left the reader. -/
theorem delimits_blocks {offset : Nat} {history data : Bytes} {bits : List Bool}
    (h : AreBlocks offset history bits data) {s : Inflate} (hoffset : s.offset = offset % 8)
    (hhistory : s.history.toList = history) (hsum : s.checksum = ({} : Adler).add history)
    {pad : List Bool} (hpad : pad.length < 8)
    (hwhole : (offset + bits.length + pad.length) % 8 = 0) :
    Delimits (s.goto (.number 3 .blockHeader)).scan
      (bits ++ (pad ++ Bits.ofBytes .lowFirst (Bytes.ofNat 4 (adler32 (history ++ data))))) data := by
  induction h generalizing s with
  | @last offset history bits data hblock =>
    subst hhistory
    obtain ⟨t, hreads, hpast⟩ := reads_block hoffset hblock
    have hboundary : pad.length = t.toBoundary := by
      rw [toBoundary, hpast.offset]
      omega
    have hvalue : t.checksum.value = adler32 (s.history.toList ++ data) := by
      rw [hpast.checksum, hsum, ← Adler.add_append, Adler.value_add_default]
    have hall := hreads.delimits (isFinished_endBlock t)
      (delimits_checksum hpast.lastBlock hboundary hvalue)
    rwa [List.append_nil] at hall
  | @more offset history bits bits' data data' hblock hrest ih =>
    subst hhistory
    obtain ⟨t, hreads, hpast⟩ := reads_block hoffset hblock
    have hnext : t.endBlock = t.goto (.number 3 .blockHeader) := by
      rw [endBlock, if_neg (by rw [hpast.lastBlock]; decide)]
    have hplace : t.offset = (offset + bits.length) % 8 := by
      rw [hpast.offset, hoffset, Nat.mod_add_mod]
    have hdata : t.history.toList = s.history.toList ++ data := by
      rw [hpast.history, Array.toList_appendList]
    have hadded : t.checksum = ({} : Adler).add (s.history.toList ++ data) := by
      rw [hpast.checksum, hsum, Adler.add_append]
    have hend := ih hplace hdata hadded (by rw [List.length_append] at hwhole; omega)
    rw [← hnext] at hend
    have hall := hreads.delimits (isFinished_endBlock t) hend
    rwa [← List.append_assoc, List.append_assoc s.history.toList] at hall

end Inflate

/-- A reader gives back the data of a stream as soon as all of it is there, and not before. -/
theorem IsZlib.delimits {data out : Bytes} (h : IsZlib data out) :
    Delimits (fun out => ({} : Inflate).scan (Bits.ofBytes .lowFirst out)) out data := by
  cases h with
  | @intro method flags bits pad packed hheader hblocks hpacked hpad =>
    have hwhole : (0 + bits.length + pad.length) % 8 = 0 := by
      have hlength := congrArg List.length hpacked
      rw [Bits.length_ofBytes, List.length_append] at hlength
      omega
    have hrest := Inflate.delimits_blocks hblocks (s := ({} : Inflate).moved 16) rfl rfl rfl hpad
      hwhole
    have hall := (Inflate.reads_header hheader).delimits rfl hrest
    have hnone : ([] : List Bool).length < 8 := Nat.succ_pos 7
    refine Delimits.ofBytes hall ?_ hnone
    simp only [Bits.ofBytes_append, hpacked, List.append_assoc, List.append_nil, List.nil_append]

end PdfStream.Flate
