import PdfStream.Proofs.Lzw.Reader

/-!
Sessions of the LZW decoder. Block after block loses nothing of a calm stream, and the call at the
end, which brings no data, gets to the end code. So a session makes of a calm stream what its words
spell, in whatever blocks it comes.
-/
namespace PdfStream
namespace Lzw
open Reader (pieceLength aheadLength)

namespace Reader

/-- A reader between two calls, with `codes` in front of it. -/
structure IsResting (r : Reader) (codes : List Code) : Prop where
  idle : r.IsIdle
  apart : ClearsApart codes
  /-- The code behind a clear code is no other. -/
  first : r.decoder.previous = none → r.codesAhead ≠ 0 →
    ∀ code ∈ codes.head?, code.meaning ≠ .clear
  settles : spell codes ≠ none → ∃ total, r.waiting.length ≤ total ∧ Settles total codes

/-- A reader between two blocks: if they were the last, one call would get to the end code. -/
structure IsPaused (r : Reader) (codes : List Code) : Prop extends r.IsResting codes where
  reaches : spell codes ≠ none → r.codesAhead = 0 ∨
    (bitLength codes ≤ aheadLength → FitPiece r.waiting.length codes)

theorem isPaused_create {early : Bool} {data : Bytes}
    (h : IsCalm ((Decoder.create early).codes (bitsOf data))) :
    (create early).IsPaused ((create early).front data []) := by
  have hfront : (create early).front data [] = (Decoder.create early).codes (bitsOf data) := by
    rw [front, List.append_nil]
    rfl
  have hnone : (create early).codesAhead = 0 := Nat.zero_div _
  rw [hfront]
  exact ⟨⟨isIdle_create early, h.apart, fun _ hcodes => absurd hnone hcodes,
    fun hends => ⟨0, Nat.le_refl 0, h.settles hends⟩⟩, fun _ => .inl hnone⟩

/-- Where there is room, a call takes in some of its data. -/
theorem length_call_lt {r : Reader} (h : r.IsIdle) {data : Bytes}
    (hroom : ¬(r.decoder.previous = none ∧ r.codesAhead ≠ 0)) (hdata : data ≠ []) :
    (r.call data).rest.length < data.length := by
  refine Nat.lt_of_le_of_lt (length_collect _ _ _ _) ?_
  have hahead := h.ahead
  have hpos := List.length_pos_of_ne_nil hdata
  have htake : takeIn { r with waiting := [] } data = refill { r with waiting := [] } data :=
    if_neg hroom
  show (takeIn { r with waiting := [] } data).2.length < data.length
  rw [htake, refill, List.length_drop]
  dsimp only
  omega

section
variable {r : Reader} {data : Bytes} {bits : List Bool}
  (h : r.IsResting (r.front data bits)) (hvalid : (r.call data).isValid = true)
  (hgoes : (r.call data).reader.finished = false)
include h hvalid hgoes

theorem IsResting.call :
    (r.call data).reader.IsResting ((r.call data).reader.front (r.call data).rest bits) := by
  have hpasses := call_passes h.idle data bits
  obtain ⟨hapart, hfirst⟩ := hpasses.clearsApart hvalid hgoes h.apart
  refine ⟨hpasses.isIdle hvalid hgoes, hapart, hfirst, fun hends => ?_⟩
  obtain ⟨total, htotal, hsettles⟩ := h.settles ((hpasses.spell_ne_none hvalid hgoes).1 hends)
  rw [← List.length_reverse] at htotal
  exact (hpasses.settles hvalid hgoes htotal hsettles).1

/-- The last call for a block leaves nothing of it. -/
theorem IsResting.ends (hends : (r.call data).Ends data) :
    (r.call data).rest = [] ∧ (r.call data).piece.size < pieceLength := by
  rcases hends with hfinished | ⟨hlength, hpiece⟩ | hlast
  · exact Bool.noConfusion (hfinished.symm.trans hgoes)
  · rw [hpiece]
    refine ⟨?_, (by decide : 0 < pieceLength)⟩
    have hwords := h.idle.words.codes (r.ahead ++ bitsOf data ++ bits)
    rcases (call_passes h.idle data bits).rest_eq_nil hvalid hgoes hwords
      (by simpa using hpiece) with hrest | ⟨width, hclear⟩
    · exact hrest
    · -- the clear code was not ahead, so that the call has taken in data if there were any
      have hroom : ¬(r.decoder.previous = none ∧ r.codesAhead ≠ 0) := fun hfresh =>
        h.first hfresh.1 hfresh.2 _ hclear rfl
      by_contra hrest
      have hdata : data ≠ [] := by
        rintro rfl
        exact hrest (List.length_eq_zero_iff.1 hlength)
      exact absurd hlength (Nat.ne_of_lt (length_call_lt h.idle hroom hdata))
  · exact hlast

theorem IsResting.last (hends : (r.call data).Ends data) :
    (r.call data).reader.IsPaused ((r.call data).reader.front [] bits) := by
  obtain ⟨hrest, hsize⟩ := h.ends hvalid hgoes hends
  have hcall := h.call hvalid hgoes
  rw [hrest] at hcall
  refine ⟨hcall, fun hspell => ?_⟩
  have hpasses := call_passes h.idle data bits
  rw [hrest] at hpasses
  obtain ⟨total, htotal, hsettles⟩ := h.settles ((hpasses.spell_ne_none hvalid hgoes).1 hspell)
  rw [← List.length_reverse] at htotal
  exact (hpasses.settles hvalid hgoes htotal hsettles).2 hsize

end

/-- What a reader and its predictor make of some data, if `bits` come after them. -/
def toCome (s : Reader × Option Predictor) (data : Bytes) (bits : List Bool) : Option Bytes :=
  if s.1.finished then some []
  else Predictor.inStore (spell (s.1.front data bits)) s.1.waiting.reverse (.quiet s.2)

theorem toCome_of_finished {s : Reader × Option Predictor} (h : s.1.finished = true) (data : Bytes)
    (bits : List Bool) : toCome s data bits = some [] := if_pos h

theorem toCome_of_idle {r : Reader} (h : r.finished = false) (p : Option Predictor) (data : Bytes)
    (bits : List Bool) : toCome (r, p) data bits =
      Predictor.inStore (spell (r.front data bits)) r.waiting.reverse (.quiet p) :=
  if_neg (by rw [h]; decide)

theorem toCome_append (s : Reader × Option Predictor) (data rest : Bytes) (bits : List Bool) :
    toCome s (data ++ rest) bits = toCome s data (bitsOf rest ++ bits) := by
  rw [toCome, front_append]
  rfl

/-- The piece of a call goes through the predictor before all that comes after it. -/
theorem toCome_call {r : Reader} (h : r.IsIdle) {data : Bytes}
    (hvalid : (r.call data).isValid = true) (bits : List Bool) (p : Option Predictor) :
    toCome (r, p) data bits =
      (Predictor.pass p (r.call data).piece.toList).output?.bind fun out =>
        (toCome ((r.call data).reader, (Predictor.pass p (r.call data).piece.toList).state)
          (r.call data).rest bits).map (out ++ ·) := by
  have hspell := (call_passes h data bits).spell_eq
  rw [toCome_of_idle h.finished, ← List.nil_append r.waiting.reverse, ← Predictor.inStore_map,
    hspell, Call.comesTo, if_neg (by rw [hvalid]; decide)]
  cases hfinished : (r.call data).reader.finished with
  | true =>
    rw [if_pos rfl, toCome_of_finished hfinished, Predictor.inStore, Option.bind_some,
      List.nil_append, Predictor.total, Step.quiet_andThen]
    simp
  | false =>
    rw [if_neg (by decide), toCome_of_idle hfinished, Predictor.inStore_map, List.nil_append,
      ← Predictor.inStore_pass, Step.quiet_andThen, Predictor.inStore_eq]

theorem toCome_invalid {r : Reader} (h : r.IsIdle) {data : Bytes}
    (hvalid : ¬(r.call data).isValid = true) (bits : List Bool) (p : Option Predictor) :
    toCome (r, p) data bits = none := by
  have hspell := (call_passes h data bits).spell_eq
  rw [toCome_of_idle h.finished, ← List.nil_append r.waiting.reverse, ← Predictor.inStore_map,
    hspell, Call.comesTo, if_pos (by simpa using hvalid)]
  rfl

/-- By induction on the calls: of codes that are apart nothing is lost. -/
theorem toCome_feed {r : Reader} {data : Bytes} {bits : List Bool}
    (h : r.IsResting (r.front data bits)) (p : Option Predictor) :
    toCome (r, p) data bits = (r.feed data p).output?.bind fun out =>
      (toCome (r.feed data p).state [] bits).map (out ++ ·) := by
  fun_induction Reader.feed r data p with
  | case1 r data p c hvalid out hends =>
    rw [toCome_call h.idle hvalid]
    have hrest (p : Option Predictor) :
        toCome (c.reader, p) c.rest bits = toCome (c.reader, p) [] bits := by
      cases hfinished : c.reader.finished with
      | true => rw [toCome_of_finished hfinished, toCome_of_finished hfinished]
      | false => rw [(h.ends hvalid hfinished hends).1]
    rw [hrest]
    rfl
  | case2 r data p c hvalid out hends ih =>
    have hgoes : c.reader.finished = false := by
      simpa using fun hfinished => hends (.inl hfinished)
    rw [toCome_call h.idle hvalid, Step.bind_output?_andThen out _ fun s => toCome s [] bits,
      ← ih out.state (h.call hvalid hgoes)]
    rfl
  | case3 r data p c hvalid =>
    rw [toCome_invalid h.idle hvalid]
    rfl

/-- After a block without a fault the reader waits for the next one. -/
theorem isPaused_feed {r : Reader} {data : Bytes} {bits : List Bool}
    (h : r.IsResting (r.front data bits)) (p : Option Predictor)
    (hfault : (r.feed data p).fault = none) (hgoes : (r.feed data p).state.1.finished = false) :
    (r.feed data p).state.1.IsPaused ((r.feed data p).state.1.front [] bits) := by
  fun_induction Reader.feed r data p with
  | case1 r data p c hvalid out hends => exact h.last hvalid hgoes hends
  | case2 r data p c hvalid out hends ih =>
    have hnot : c.reader.finished = false := by
      simpa using fun hfinished => hends (.inl hfinished)
    cases hout : out.fault with
    | some e =>
      rw [Step.andThen_of_fault hout, hout] at hfault
      cases hfault
    | none =>
      rw [Step.fault_andThen hout] at hfault
      rw [Step.state_andThen hout] at hgoes ⊢
      exact ih _ (h.call hvalid hnot) hfault hgoes
  | case3 r data p c hvalid => cases hfault

section
variable {r : Reader} (h : r.IsResting (r.front [] []))
  (hfit : FitPiece r.waiting.length (r.front [] [])) (hends : spell (r.front [] []) ≠ none)
include h hfit hends

/-- From codes that fit in a piece a call gets to the end code, or to a full piece and the same
situation. -/
theorem call_nil_spec : (r.call []).rest = [] ∧ (r.call []).isValid = true ∧
    ((r.call []).reader.finished = false → ¬(r.call []).Ends [] ∧
      FitPiece (r.call []).reader.waiting.length
        ((r.call []).reader.front (r.call []).rest []) ∧
      spell ((r.call []).reader.front (r.call []).rest []) ≠ none) := by
  have hrest : (r.call []).rest = [] :=
    List.eq_nil_of_length_eq_zero (Nat.le_zero.1
      (Nat.le_trans (length_collect _ _ _ _) (length_ready _ _ _)))
  have hpasses := call_passes h.idle [] []
  rw [← List.length_reverse] at hfit
  obtain ⟨hvalid, hfull⟩ := hpasses.reaches hfit hends fun hcodes => by
    rw [hrest]
    exact front_of_short hcodes
  refine ⟨hrest, hvalid, fun hgoes => ?_⟩
  obtain ⟨hsize, hwaiting, hlater⟩ := hfull hgoes
  refine ⟨fun hlast => ?_, ?_, (hpasses.spell_ne_none hvalid hgoes).2 hends⟩
  · have hless := (h.ends hvalid hgoes hlast).2
    omega
  · rw [hwaiting]
    exact hlater

/-- With no data to come, codes that fit in a piece are read up to the end code. -/
theorem finished_feed (p : Option Predictor) (hfault : (r.feed [] p).fault = none) :
    (r.feed [] p).state.1.finished = true := by
  generalize hdata : ([] : Bytes) = data at *
  fun_induction Reader.feed r data p with
  | case1 r data p c hvalid out hlast =>
    subst hdata
    show c.reader.finished = true
    by_contra hnot
    exact ((call_nil_spec h hfit hends).2.2 (by simpa using hnot)).1 hlast
  | case2 r data p c hvalid out hlast ih =>
    subst hdata
    have hgoes : c.reader.finished = false := by
      simpa using fun hfinished => hlast (.inl hfinished)
    obtain ⟨hrest, -, hagain⟩ := call_nil_spec h hfit hends
    obtain ⟨-, hfit', hends'⟩ := hagain hgoes
    cases hout : out.fault with
    | some e =>
      rw [Step.andThen_of_fault hout, hout] at hfault
      cases hfault
    | none =>
      rw [Step.fault_andThen hout] at hfault
      rw [Step.state_andThen hout]
      exact ih _ hrest.symm (h.call hvalid hgoes) hfit' hends' hfault
  | case3 r data p c hvalid => cases hfault

end

end Reader

def decoding : Coder Lzw := ⟨fun data c => c.decodeBlock data, endDecode⟩

/-- What a decode session makes of the data. -/
def decoded (c : Lzw) (data : Bytes) : Option Bytes :=
  if c.finished then some []
  else c.reader.bind fun r => Reader.toCome (r, c.predictor) data []

/-- The codec knows whether its reader is finished; if not, the reader is ready for the data. -/
def IsDecoding (c : Lzw) (data : Bytes) : Prop :=
  ∀ r, c.reader = some r →
    r.finished = c.finished ∧ (c.finished = false → r.IsPaused (r.front data []))

theorem decoded_of_finished {c : Lzw} (h : c.finished = true) (data : Bytes) :
    decoded c data = some [] := if_pos h

section
variable {c : Lzw} (hfinished : c.finished = false)
include hfinished

theorem decodeBlock_of_none (hr : c.reader = none) (data : Bytes) :
    c.decodeBlock data = c.notStarted .decode := by
  rw [decodeBlock, if_neg (by rw [hfinished]; decide), hr]

theorem decoded_of_none (hr : c.reader = none) (data : Bytes) : decoded c data = none := by
  rw [decoded, if_neg (by rw [hfinished]; decide), hr, Option.bind_none]

variable {r : Reader} (hr : c.reader = some r)
include hr

theorem decoded_of_reading (data : Bytes) :
    decoded c data = Reader.toCome (r, c.predictor) data [] := by
  rw [decoded, if_neg (by rw [hfinished]; decide), hr, Option.bind_some]

theorem decodeBlock_eq (data : Bytes) : c.decodeBlock data =
    ((r.feed data c.predictor).map fun (reader, predictor) =>
      { c with reader := some reader, predictor }).andThen fun c =>
        .quiet { c with finished := c.reader.any Reader.finished } := by
  rw [decodeBlock, if_neg (by rw [hfinished]; decide), hr]

theorem decodeBlock_yields {data : Bytes} (h : (r.feed data c.predictor).fault = none) :
    (c.decodeBlock data).Yields { c with
      reader := some (r.feed data c.predictor).state.1
      predictor := (r.feed data c.predictor).state.2
      finished := (r.feed data c.predictor).state.1.finished }
      (r.feed data c.predictor).bytes := by
  have hquiet := ((Step.yields_of_no_fault h).map fun ((reader, predictor) :
      Reader × Option Predictor) => { c with reader := some reader, predictor }).andThen
    (f := fun c => .quiet { c with finished := c.reader.any Reader.finished })
    (Step.yields_quiet _)
  rw [List.append_nil] at hquiet
  rw [decodeBlock_eq hfinished hr]
  exact hquiet

theorem decodeBlock_of_fault {data : Bytes} {e : Error}
    (h : (r.feed data c.predictor).fault = some e) : (c.decodeBlock data).fault = some e := by
  have hmap : ((r.feed data c.predictor).map fun ((reader, predictor) :
      Reader × Option Predictor) => { c with reader := some reader, predictor }).fault = some e := h
  rw [decodeBlock_eq hfinished hr, Step.andThen_of_fault hmap, hmap]

/-- What the codec makes of its data is what its reader makes of them. -/
theorem decodeBlock_reading {data rest : Bytes} (h : r.IsPaused (r.front (data ++ rest) [])) :
    ((c.decodeBlock data).fault = none → (c.decodeBlock data).state.IsDecoding rest) ∧
      decoded c (data ++ rest) = (c.decodeBlock data).output?.bind fun out =>
        (decoded (c.decodeBlock data).state rest).map (out ++ ·) := by
  rw [Reader.front_append] at h
  rw [decoded_of_reading hfinished hr, Reader.toCome_append,
    Reader.toCome_feed h.toIsResting c.predictor]
  cases hf : (r.feed data c.predictor).fault with
  | some e =>
    have hfault := decodeBlock_of_fault hfinished hr hf
    refine ⟨fun hnone => ?_, ?_⟩
    · rw [hfault] at hnone
      cases hnone
    · rw [Step.output?_of_fault hf, Step.output?_of_fault hfault, Option.bind_none,
        Option.bind_none]
  | none =>
    have hyields := decodeBlock_yields hfinished hr hf
    rw [hyields.2.1, hyields.output?, Step.output?_of_no_fault hf, ← Reader.toCome_append,
      List.nil_append]
    refine ⟨fun _ r' hr' => ?_, ?_⟩
    · cases hr'
      refine ⟨rfl, fun hgoes => ?_⟩
      have hpaused := Reader.isPaused_feed h.toIsResting c.predictor hf hgoes
      rwa [← Reader.front_append, List.nil_append] at hpaused
    · congr 1
      funext out
      congr 1
      unfold decoded
      split
      next hlast => exact Reader.toCome_of_finished hlast _ _
      next => rfl

end

/-- A block, from any state of a session. -/
theorem decodeBlock_spec {c : Lzw} {data rest : Bytes} (hc : c.IsDecoding (data ++ rest)) :
    ((c.decodeBlock data).fault = none → (c.decodeBlock data).state.IsDecoding rest) ∧
      decoded c (data ++ rest) = (c.decodeBlock data).output?.bind fun out =>
        (decoded (c.decodeBlock data).state rest).map (out ++ ·) := by
  cases hfinished : c.finished with
  | true =>
    have hquiet : c.decodeBlock data = .quiet c := if_pos hfinished
    rw [hquiet, decoded_of_finished hfinished, Step.output?_quiet, Option.bind_some,
      Step.state_quiet, decoded_of_finished hfinished]
    refine ⟨fun _ r hr => ⟨(hc r hr).1, fun hgoes => ?_⟩, rfl⟩
    exact Bool.noConfusion (hfinished.symm.trans hgoes)
  | false =>
    cases hr : c.reader with
    | none =>
      rw [decodeBlock_of_none hfinished hr]
      exact ⟨nofun, decoded_of_none hfinished hr _⟩
    | some r => exact decodeBlock_reading hfinished hr ((hc r hr).2 hfinished)

/-- If the block at the end, which has no data, does not get to the end code, there is none. -/
theorem decoded_nil_of_cut {c : Lzw} (hc : c.IsDecoding [])
    (hfault : (c.decodeBlock []).fault = none)
    (hcut : (c.decodeBlock []).state.finished = false) : decoded c [] = none := by
  cases hfinished : c.finished with
  | true =>
    have hquiet : c.decodeBlock [] = .quiet c := if_pos hfinished
    rw [hquiet, Step.state_quiet, hfinished] at hcut
    cases hcut
  | false =>
    cases hr : c.reader with
    | none => exact decoded_of_none hfinished hr []
    | some r =>
      obtain ⟨hsame, hpaused⟩ := hc r hr
      have hready := hpaused hfinished
      rw [decoded_of_reading hfinished hr, Reader.toCome_of_idle hready.idle.finished]
      by_contra hsome
      have hends : spell (r.front [] []) ≠ none := by
        intro hnone
        rw [hnone] at hsome
        exact hsome rfl
      cases hf : (r.feed [] c.predictor).fault with
      | some e =>
        rw [decodeBlock_of_fault hfinished hr hf] at hfault
        cases hfault
      | none =>
        rw [(decodeBlock_yields hfinished hr hf).2.1] at hcut
        have hlast : (r.feed [] c.predictor).state.1.finished = true := by
          rcases hready.reaches hends with hshort | hfit
          · rw [Reader.front_of_short hshort] at hends
            exact absurd rfl hends
          · refine Reader.finished_feed hready.toIsResting (hfit ?_) hends c.predictor hf
            have hbits := bitLength_codes_le r.decoder (r.ahead ++ [])
            have hahead := hready.idle.ahead
            rw [Reader.front_nil]
            rw [List.append_nil] at hbits ⊢
            omega
        exact Bool.noConfusion (hlast.symm.trans hcut)

theorem endDecode_spec {c : Lzw} (hc : c.IsDecoding []) : c.endDecode.output? = decoded c [] := by
  have hnone : c.IsDecoding ([] ++ []) := hc
  have hblock := (decodeBlock_spec hnone).2
  rw [List.append_nil] at hblock
  rw [endDecode, Step.output?_andThen]
  cases hf : (c.decodeBlock []).fault with
  | some e => rw [hblock, Step.output?_of_fault hf, Option.bind_none, Option.bind_none]
  | none =>
    cases hfinished : (c.decodeBlock []).state.finished with
    | true =>
      rw [hblock, Step.output?_of_no_fault hf, Option.bind_some, Option.bind_some,
        decoded_of_finished hfinished]
      simp only [Bool.not_true, Bool.false_eq_true, if_false, Step.output?_map,
        Predictor.output?_close]
    | false =>
      rw [decoded_nil_of_cut hc hf hfinished, Step.output?_of_no_fault hf, Option.bind_some]
      rfl

theorem decoding_computesOf {c : Lzw} {data : Bytes} (hc : c.IsDecoding data) :
    decoding.ComputesOf c data (decoded c data) :=
  Coder.computesOf_of_meaning IsDecoding decoded (fun _ _ _ h => (decodeBlock_spec h).1)
    (fun _ _ _ h => (decodeBlock_spec h).2) (fun _ h => endDecode_spec h) hc

theorem isDecoding_beginDecode {c : Lzw} {parms : Option DecodeParms} {data : Bytes}
    (hcalm : IsCalmData parms data) (h : (c.beginDecode parms).fault = none) :
    (c.beginDecode parms).state.IsDecoding data := by
  unfold beginDecode at h ⊢
  split at h
  next => cases h
  next early predictor hsettings =>
    rintro r ⟨⟩
    exact ⟨rfl, fun _ => Reader.isPaused_create (hcalm early predictor hsettings)⟩

end Lzw
end PdfStream
