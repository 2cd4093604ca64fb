import PdfStream.Flate.Deflate
import PdfStream.Proofs.Coder
import PdfStream.Proofs.Flate.Token

/-!
What is deflated is a stream of the data. Each block that the writer makes is one of the format, and
where it ends the writer knows the checksum of all that was written.
-/
namespace PdfStream.Flate

theorem getD_eq_getElem (data : Array UInt8) {i : Nat} (hi : i < data.toList.length) :
    data.getD i 0 = data.toList[i] := by
  rw [Array.length_toList] at hi
  rw [Array.getD_eq_getD_getElem?, Array.getElem?_eq_getElem hi, Option.getD_some,
    Array.getElem_toList]

/-- By induction on the tokens: each stands for the bytes from its own place up to that of the next. -/
theorem isCoded_tokens {data : Array UInt8} {i : Nat} {tokens : List Token}
    (h : Token.Spells data i tokens) (old : Bytes) :
    IsCoded .fixed (old ++ data.toList.take i)
      (tokens.flatMap Token.bits ++ Token.literalWords.getD 256 []) (data.toList.drop i) := by
  induction tokens generalizing i with
  | nil =>
    rw [List.drop_of_length_le h, List.flatMap_nil, List.nil_append]
    exact .ending (Token.isWord_literalWords (by decide))
  | cons token tokens ih =>
    rw [List.flatMap_cons, List.append_assoc]
    cases token with
    | literal b =>
      obtain ⟨hi, hb, hrest⟩ := h
      rw [← Array.length_toList] at hi
      rw [getD_eq_getElem data hi] at hb
      have hnext := ih hrest
      rw [List.take_add_one, List.getElem?_eq_getElem hi, ← hb, ← List.append_assoc] at hnext
      have hlt := b.toNat_lt
      rw [List.drop_eq_getElem_cons hi, ← hb]
      exact .literal (Token.isWord_literalWords (by omega)) hnext
    | reference length distance =>
      obtain ⟨hfits, hrest⟩ := h
      obtain ⟨hshort, hlong, hpos, hfarthest, -, hend, -⟩ := id hfits
      have hnext := ih hrest
      rw [List.take_add, ← List.append_assoc] at hnext
      have hnumber : IsNumber lengthRanges fixedLiteralLengths 257
          ((data.toList.drop i).take length).length
          (Token.rangeBits lengthRanges Token.literalWords 257 length) := by
        have hchunk : ((data.toList.drop i).take length).length = length := by
          rw [List.length_take, List.length_drop, Array.length_toList]
          omega
        rw [hchunk]
        exact Token.isNumber_length hshort hlong
      have hdata : (data.toList.drop i).take length ++ data.toList.drop (i + length) =
          data.toList.drop i := by
        rw [← List.drop_drop, List.take_append_drop]
      rw [Token.bits_reference, ← hdata]
      exact .reference hnumber (Token.isNumber_distance hpos hfarthest) (hfits.isCopy old) hnext

/-- What the writer makes of a block's data, at any level. -/
theorem isBlock_block (level offset : Nat) (history : Bytes) (last : Bool) {data : Array UInt8}
    (hsize : data.size ≤ 65535) :
    IsBlock offset history last (Deflate.block level offset last data) data.toList := by
  unfold Deflate.block
  split
  · have hpad : (Deflate.fill (offset + 3)).length = (8 - (offset + 3) % 8) % 8 :=
      List.length_replicate
    rw [Deflate.storedBlock, ← Array.length_toList]
    exact .stored (by omega) (by omega) (by rwa [Array.length_toList])
  · have htokens := isCoded_tokens (Token.ofData_spells (2 * level) data) history
    rw [List.take_zero, List.append_nil, List.drop_zero] at htokens
    rw [Deflate.fixedBlock, List.append_assoc]
    exact .fixed htokens

theorem IsBlock.congr {offset offset' : Nat} (hoffset : offset % 8 = offset' % 8) {history data : Bytes}
    {last : Bool} {bits : List Bool} (h : IsBlock offset history last bits data) :
    IsBlock offset' history last bits data := by
  cases h with
  | stored hpad hwhole hsize => exact .stored hpad (by omega) hsize
  | fixed hcoded => exact .fixed hcoded
  | dynamic htables hcoded => exact .dynamic htables hcoded

/-- Whole bytes in front do not matter. -/
theorem AreBlocks.congr {offset offset' : Nat} (hoffset : offset % 8 = offset' % 8)
    {history data : Bytes} {bits : List Bool} (h : AreBlocks offset history bits data) :
    AreBlocks offset' history bits data := by
  induction h generalizing offset' with
  | last hblock => exact .last (hblock.congr hoffset)
  | more hblock hrest ih => exact .more (hblock.congr hoffset) (ih (by omega))

namespace Deflate

/-- The last block, filled up to a byte, and the checksum. -/
def last (d : Deflate) : Step Deflate :=
  (d.flushBlock true).andThen fun d =>
    d.writeBits (fill d.held.length ++ byteBits (Bytes.ofNat 4 d.checksum.value))

/-- What a writer still makes of the data to come. -/
def encoded (d : Deflate) (data : Bytes) : Option Bytes :=
  ((Step.run addByte d data).andThen last).output?

theorem encoded_nil (d : Deflate) : d.encoded [] = d.last.output? := by
  rw [encoded, Step.run_nil, Step.quiet_andThen]

theorem encoded_cons (d : Deflate) (b : UInt8) (data : Bytes) : d.encoded (b :: data) =
    (d.addByte b).output?.bind fun out =>
      ((d.addByte b).state.encoded data).map (out ++ ·) := by
  rw [encoded, Step.run_cons, Step.andThen_assoc, Step.output?_andThen]
  rfl

def writing : Coder Deflate := ⟨fun data d => d.feed data, finish⟩

theorem writing_computes (d : Deflate) : writing.Computes d d.encoded := by
  have hspan : spanLength ≠ 0 := by decide
  refine Coder.computes_run writing addByte last id (fun d data => ?_) (fun d => ?_) d
  · exact Step.agrees_inSpans hspan (Step.run addByte d data)
  · exact (Step.agrees_inSpans hspan d.last).1

/-- Written bits show in the bytes and the bits held. -/
theorem writeBits_spec (d : Deflate) (bits : List Bool) :
    ∃ held out, (d.writeBits bits).Yields { d with held } out ∧
      Bits.ofBytes .lowFirst out ++ held = d.held ++ bits ∧ held.length < 8 :=
  ⟨(Bits.pack .lowFirst (d.held ++ bits)).2, (Bits.pack .lowFirst (d.held ++ bits)).1,
    Step.yields_write _ _, Bits.ofBytes_pack .lowFirst _, Bits.length_pack .lowFirst _⟩

/-- The stream header, if it has not been written yet. -/
def opening (d : Deflate) : List Bool := if d.started then [] else byteBits (header d.level)

theorem flushBlock_spec {d : Deflate} (hheld : d.started = false → d.held = [])
    (hshort : d.held.length < 8) (last : Bool) :
    ∃ held out, (d.flushBlock last).Yields { d with started := true, pending := #[], held } out ∧
      Bits.ofBytes .lowFirst out ++ held =
        d.held ++ (d.opening ++ block d.level d.held.length last d.pending) ∧ held.length < 8 := by
  obtain ⟨level, started, checksum, pending, dheld⟩ := d
  cases started with
  | true =>
    obtain ⟨held, out, hyields, hbits, hlength⟩ := writeBits_spec
      ⟨level, true, checksum, #[], dheld⟩ (block level dheld.length last pending)
    exact ⟨held, out, hyields, hbits, hlength⟩
  | false =>
    have hnil : dheld = [] := hheld rfl
    subst hnil
    have hpack : Bits.pack .lowFirst (byteBits (header level)) = (header level, []) := by
      have hnone : ([] : List Bool).length < 8 := by decide
      have hwhole := Bits.pack_ofBytes .lowFirst (header level) hnone
      rwa [List.append_nil] at hwhole
    have hstart : (start ⟨level, false, checksum, pending, []⟩).Yields
        ⟨level, true, checksum, pending, []⟩ (header level) := by
      have hwrite : start ⟨level, false, checksum, pending, []⟩ =
          .write ⟨level, true, checksum, pending, []⟩ (header level) := by
        simp [start, writeBits, hpack]
      rw [hwrite]
      exact Step.yields_write _ _
    obtain ⟨held, out, hyields, hbits, hlength⟩ := writeBits_spec
      ⟨level, true, checksum, #[], []⟩ (block level 0 last pending)
    refine ⟨held, header level ++ out, hstart.andThen hyields, ?_, hlength⟩
    rw [Bits.ofBytes_append, List.append_assoc, hbits]
    rfl

theorem isHeader_header (level : Nat) :
    ∃ method flags, header level = [method, flags] ∧ IsHeader method flags := by
  refine ⟨0x78, _, rfl, ?_⟩
  split
  · constructor <;> decide
  · split
    · constructor <;> decide
    · split <;> constructor <;> decide

theorem length_opening (d : Deflate) : d.opening.length % 8 = 0 := by
  unfold opening
  split
  · rfl
  · rw [byteBits, ← Bits.ofBytes, Bits.length_ofBytes, Nat.mul_mod_right]

/-- A writer that has made blocks of `history`. -/
structure HasWritten (d : Deflate) (history : Bytes) : Prop where
  short : d.held.length < 8
  checksum : d.checksum = ({} : Adler).add (history ++ d.pending.toList)
  fresh : d.started = false → d.held = []

/-- The stream header, if it is still to come, then blocks of the data, then the checksum of all. -/
def Ends (d : Deflate) (history data out : Bytes) : Prop :=
  ∃ bits pad, AreBlocks d.held.length history bits data ∧ pad.length < 8 ∧
    Bits.ofBytes .lowFirst out = d.held ++ (d.opening ++ (bits ++ (pad ++
      Bits.ofBytes .lowFirst (Bytes.ofNat 4 (adler32 (history ++ data))))))

/-- Writing a block. -/
theorem flushBlock_block {d : Deflate} {history : Bytes} (h : d.HasWritten history)
    (hroom : d.pending.size ≤ blockLength) (last : Bool) :
    ∃ held out bits, (d.flushBlock last).Yields { d with started := true, pending := #[], held } out ∧
      Bits.ofBytes .lowFirst out ++ held = d.held ++ (d.opening ++ bits) ∧
      IsBlock d.held.length history last bits d.pending.toList ∧
      (d.held.length + bits.length) % 8 = held.length ∧
      HasWritten { d with started := true, pending := #[], held } (history ++ d.pending.toList) := by
  obtain ⟨held, out, hyields, hbits, hshort⟩ := flushBlock_spec h.fresh h.short last
  have hsize : d.pending.size ≤ 65535 := Nat.le_trans hroom (by decide)
  have hblock := isBlock_block d.level d.held.length history last hsize
  refine ⟨held, out, _, hyields, hbits, hblock, ?_, hshort, ?_, fun hfalse => Bool.noConfusion hfalse⟩
  · have hlength := congrArg List.length hbits
    have hopening := d.length_opening
    simp only [List.length_append, Bits.length_ofBytes] at hlength
    omega
  · rw [h.checksum]
    simp

/-- The last block, and the checksum. -/
theorem last_ends {d : Deflate} {history : Bytes} (h : d.HasWritten history)
    (hroom : d.pending.size ≤ blockLength) :
    ∃ out, d.last.output? = some out ∧ d.Ends history d.pending.toList out := by
  obtain ⟨held, out, bits, hyields, hbits, hblock, hplace, hnext⟩ := flushBlock_block h hroom true
  obtain ⟨held', out', hwrite, hbits', hshort⟩ := writeBits_spec
    { d with started := true, pending := #[], held }
    (fill held.length ++ byteBits (Bytes.ofNat 4 d.checksum.value))
  have hfill : (fill held.length).length = (8 - held.length % 8) % 8 := List.length_replicate
  have hwhole : held' = [] := by
    have hlength := congrArg List.length hbits'
    have hbytes : (byteBits (Bytes.ofNat 4 d.checksum.value)).length = 32 := by
      rw [byteBits, ← Bits.ofBytes, Bits.length_ofBytes, Bytes.length_ofNat]
    simp only [List.length_append, Bits.length_ofBytes, hfill, hbytes] at hlength
    apply List.eq_nil_of_length_eq_zero
    omega
  refine ⟨out ++ out', (hyields.andThen hwrite).output?, bits, fill held.length, .last hblock,
    by omega, ?_⟩
  rw [hwhole, List.append_nil] at hbits'
  rw [Bits.ofBytes_append, hbits', ← List.append_assoc, hbits, ← Adler.value_add_default,
    ← h.checksum, byteBits, ← Bits.ofBytes]
  simp only [List.append_assoc]

/-- A byte that is kept. -/
theorem HasWritten.push {d : Deflate} {history : Bytes} (h : d.HasWritten history) (b : UInt8) :
    HasWritten { d with checksum := d.checksum.addByte b, pending := d.pending.push b } history where
  short := h.short
  checksum := by
    rw [Array.toList_push, ← List.append_assoc, Adler.add_append, ← h.checksum]
    rfl
  fresh := h.fresh

/-- A block in front of what the writer still makes. -/
theorem Ends.prepend {d d' : Deflate} {history block data out out' : Bytes} {bits : List Bool}
    (hout : Bits.ofBytes .lowFirst out ++ d'.held = d.held ++ (d.opening ++ bits))
    (hblock : IsBlock d.held.length history false bits block) (hstarted : d'.started = true)
    (hplace : (d.held.length + bits.length) % 8 = d'.held.length)
    (hends : d'.Ends (history ++ block) data out') :
    d.Ends history (block ++ data) (out ++ out') := by
  obtain ⟨bits', pad, hblocks, hpad, hout'⟩ := hends
  have hnone : d'.opening = [] := if_pos hstarted
  refine ⟨bits ++ bits', pad, .more hblock (hblocks.congr ?_), hpad, ?_⟩
  · rw [← hplace, Nat.mod_mod]
  · rw [Bits.ofBytes_append, hout', hnone, List.nil_append, ← List.append_assoc, hout]
    simp only [List.append_assoc]

/-- By induction on the data: a byte is kept, or makes up a block with those kept before it. -/
theorem encoded_ends {d : Deflate} {history : Bytes} (h : d.HasWritten history)
    (hroom : d.pending.size < blockLength) (data : Bytes) :
    ∃ out, d.encoded data = some out ∧ d.Ends history (d.pending.toList ++ data) out := by
  induction data generalizing d history with
  | nil =>
    obtain ⟨out, hout, hends⟩ := last_ends h (Nat.le_of_lt hroom)
    rw [List.append_nil]
    exact ⟨out, (encoded_nil d).trans hout, hends⟩
  | cons b data ih =>
    obtain ⟨d', hd'⟩ : ∃ d', d' = { d with
      checksum := d.checksum.addByte b, pending := d.pending.push b } := ⟨_, rfl⟩
    have hpush : d'.HasWritten history := hd' ▸ h.push b
    have hpending : d'.pending.toList ++ data = d.pending.toList ++ b :: data := by
      rw [hd', Array.toList_push, List.append_assoc, List.singleton_append]
    have hsame (out : Bytes) (hends : d'.Ends history (d'.pending.toList ++ data) out) :
        d.Ends history (d.pending.toList ++ b :: data) out := by
      rw [hpending, hd'] at hends
      exact hends
    have hadd : d.addByte b =
        if d'.pending.size < blockLength then .quiet d' else d'.flushBlock false := by
      rw [hd']
      rfl
    rw [encoded_cons, hadd]
    split
    next hmore =>
      obtain ⟨out, hout, hends⟩ := ih hpush hmore
      refine ⟨out, ?_, hsame out hends⟩
      show (Step.quiet d').output?.bind _ = some out
      rw [Step.output?_quiet, Option.bind_some]
      simpa using hout
    next =>
      have hsize : d'.pending.size ≤ blockLength := by
        rw [hd', Array.size_push]
        exact hroom
      obtain ⟨held, out, bits, hyields, hbits, hblock, hplace, hnext⟩ :=
        flushBlock_block hpush hsize false
      obtain ⟨out', hout', hends⟩ := ih hnext (Nat.succ_pos _)
      refine ⟨out ++ out', ?_, hsame _ (Ends.prepend hbits hblock rfl hplace hends)⟩
      rw [hyields.output?, hyields.2.1, Option.bind_some, hout', Option.map_some]

/-- From the start, a writer makes a whole stream. -/
theorem Ends.isZlib {level : Nat} {data out : Bytes} (h : Ends { level } [] data out) :
    IsZlib data out := by
  obtain ⟨bits, pad, hblocks, hpad, hbits⟩ := h
  obtain ⟨method, flags, hheader, his⟩ := isHeader_header level
  have hopening : ({ level } : Deflate).opening = Bits.ofBytes .lowFirst [method, flags] := by
    rw [← hheader]
    rfl
  rw [hopening, List.nil_append, List.nil_append] at hbits
  have hwhole : (bits ++ pad).length % 8 = 0 := by
    have hlength := congrArg List.length hbits
    simp only [List.length_append, Bits.length_ofBytes] at hlength
    rw [List.length_append]
    omega
  obtain ⟨packed, hpacked⟩ := Bits.exists_ofBytes_eq .lowFirst hwhole
  have hparts : out = [method, flags] ++ packed ++ Bytes.ofNat 4 (adler32 data) := by
    apply Bits.ofBytes_injective .lowFirst
    rw [hbits, Bits.ofBytes_append, Bits.ofBytes_append, hpacked]
    simp only [List.append_assoc]
  rw [hparts]
  exact .intro his hblocks hpacked hpad

/-- What is deflated, at any level, is a stream of the data. -/
theorem encoded_isZlib (level : Nat) (data : Bytes) :
    ∃ out, encoded { level } data = some out ∧ IsZlib data out := by
  have hstart : HasWritten { level } [] := ⟨Nat.succ_pos 7, rfl, fun _ => rfl⟩
  obtain ⟨out, hout, hends⟩ := encoded_ends hstart (Nat.succ_pos _) data
  exact ⟨out, hout, Ends.isZlib hends⟩

end Deflate
end PdfStream.Flate
