import PdfStream.Proofs.Codec

/-!
Starting over. A session works only on what its start has set, so whatever earlier sessions left in
a codec does not show: of two codecs with the same settings, the next sessions write the same spans
and have the same faults, call by call.
-/
namespace PdfStream
namespace Step
variable {σ τ : Type}

@[simp] theorem map_quiet (f : σ → τ) (s : σ) : (quiet s).map f = quiet (f s) := rfl
@[simp] theorem map_write (f : σ → τ) (s : σ) (b : Bytes) : (write s b).map f = write (f s) b := rfl
@[simp] theorem map_stop (f : σ → τ) (s : σ) (e : Error) : (stop s e).map f = stop (f s) e := rfl

@[simp] theorem spans_map (f : σ → τ) (r : Step σ) : (r.map f).spans = r.spans := rfl

theorem map_joined (r : Step σ) (f : σ → τ) : r.joined.map f = (r.map f).joined := by
  obtain ⟨state, spans, _ | e⟩ := r <;> rfl

end Step

namespace RunLength

/-- What a session of this direction works on, with everything else as it was before the first one.
Each of its steps is a step on that part. -/
def inUse (direction : Direction) (c : RunLength) : RunLength :=
  match direction with
  | .encode => { c with expect := .header }
  | .decode => { expect := c.expect }

theorem flushLiteral_inUse (c : RunLength) :
    c.flushLiteral.map (inUse .encode) = (c.inUse .encode).flushLiteral := by
  obtain ⟨_ | ⟨b, literal⟩, run, expect⟩ := c <;> rfl

theorem closeRun_inUse (c : RunLength) :
    c.closeRun.map (inUse .encode) = (c.inUse .encode).closeRun := by
  obtain ⟨literal, _ | run, expect⟩ := c
  · rfl
  have hflush := flushLiteral_inUse ⟨literal, some run, expect⟩
  by_cases hcount : run.count = 1
  · by_cases hfull : literal.length = maxRun
    · simp only [closeRun, hcount, hfull, inUse, ↓reduceIte] at hflush ⊢
      rw [← hflush]
      exact Step.map_andThen _ _ _ _ fun _ => rfl
    · simp [closeRun, hcount, hfull, inUse]
  · simp only [closeRun, hcount, inUse, ↓reduceIte] at hflush ⊢
    rw [← hflush]
    exact Step.map_andThen _ _ _ _ fun _ => rfl

theorem addByte_inUse (c : RunLength) (b : UInt8) :
    (c.addByte b).map (inUse .encode) = (c.inUse .encode).addByte b := by
  obtain ⟨literal, _ | run, expect⟩ := c
  · rfl
  have hclose := closeRun_inUse ⟨literal, some run, expect⟩
  by_cases hsame : b = run.byte ∧ run.count < maxRun
  · simp [addByte, hsame, inUse]
  · simp only [addByte, hsame, inUse, ↓reduceIte] at hclose ⊢
    rw [← hclose]
    exact Step.map_andThen _ _ _ _ fun _ => rfl

theorem encodeBlock_inUse (c : RunLength) (data : Bytes) :
    (c.encodeBlock data).map (inUse .encode) = (c.inUse .encode).encodeBlock data :=
  Step.map_run addByte (inUse .encode) addByte addByte_inUse c data

theorem endEncode_inUse (c : RunLength) :
    c.endEncode.map (inUse .encode) = (c.inUse .encode).endEncode := by
  rw [endEncode, endEncode, ← closeRun_inUse, ← Step.map_andThen _ _ _ _ flushLiteral_inUse]
  exact Step.map_andThen _ _ _ _ fun _ => rfl

theorem endDecode_inUse (c : RunLength) :
    c.endDecode.map (inUse .decode) = (c.inUse .decode).endDecode := by
  cases h : c.expect <;> simp [endDecode, inUse, h]

end RunLength

namespace Lzw

def inUse (direction : Direction) (c : Lzw) : Lzw :=
  match direction with
  | .encode => { earlyChange := c.earlyChange, encoder := c.encoder }
  | .decode => { c with encoder := none }

theorem encodeBlock_inUse (c : Lzw) (data : Bytes) :
    (c.encodeBlock data).map (inUse .encode) = (c.inUse .encode).encodeBlock data := by
  obtain ⟨early, _ | encoder, reader, predictor, finished⟩ := c <;> rfl

theorem endEncode_inUse (c : Lzw) :
    c.endEncode.map (inUse .encode) = (c.inUse .encode).endEncode := by
  obtain ⟨early, _ | encoder, reader, predictor, finished⟩ := c <;> rfl

theorem decodeBlock_inUse (c : Lzw) (data : Bytes) :
    (c.decodeBlock data).map (inUse .decode) = (c.inUse .decode).decodeBlock data := by
  obtain ⟨early, encoder, _ | reader, predictor, _ | _⟩ := c
  · rfl
  · rfl
  · exact Step.map_andThen _ _ _ _ fun _ => rfl
  · rfl

theorem endDecode_inUse (c : Lzw) :
    c.endDecode.map (inUse .decode) = (c.inUse .decode).endDecode := by
  rw [endDecode, endDecode, ← decodeBlock_inUse]
  refine Step.map_andThen _ _ _ _ fun s => ?_
  cases h : s.finished <;> simp [inUse, h]
  rfl

end Lzw

namespace Ascii85

def inUse (direction : Direction) (c : Ascii85) : Ascii85 :=
  match direction with
  | .encode => { group := c.group }
  | .decode => c

theorem addByte_inUse (c : Ascii85) (b : UInt8) :
    (c.addByte b).map (inUse .encode) = (c.inUse .encode).addByte b := by
  by_cases h : (c.group ++ [b]).length = 4 <;>
    simp only [addByte, inUse, h, ↓reduceIte, Step.map_write, Step.map_quiet]

theorem encodeBlock_inUse (c : Ascii85) (data : Bytes) :
    (c.encodeBlock data).map (inUse .encode) = (c.inUse .encode).encodeBlock data := by
  rw [encodeBlock, encodeBlock, Step.map_joined,
    Step.map_run addByte (inUse .encode) addByte addByte_inUse]

theorem endEncode_inUse (c : Ascii85) :
    c.endEncode.map (inUse .encode) = (c.inUse .encode).endEncode := by
  obtain ⟨_ | ⟨b, group⟩, marker⟩ := c <;> rfl

end Ascii85

namespace AsciiHex

def inUse (direction : Direction) (c : AsciiHex) : AsciiHex :=
  match direction with
  | .encode => {}
  | .decode => c

end AsciiHex

namespace Flate

def inUse (direction : Direction) (c : Flate) : Flate :=
  match direction with
  | .encode => { level := c.level, encoder := c.encoder }
  | .decode => { c with encoder := none }

theorem encodeBlock_inUse (c : Flate) (data : Bytes) :
    (c.encodeBlock data).map (inUse .encode) = (c.inUse .encode).encodeBlock data := by
  cases data with
  | nil => rfl
  | cons b data =>
    obtain ⟨level, _ | encoder, reader, predictor, finished⟩ := c <;> rfl

theorem endEncode_inUse (c : Flate) :
    c.endEncode.map (inUse .encode) = (c.inUse .encode).endEncode := by
  obtain ⟨level, _ | encoder, reader, predictor, finished⟩ := c <;> rfl

theorem decodeBlock_inUse (c : Flate) (data : Bytes) :
    (c.decodeBlock data).map (inUse .decode) = (c.inUse .decode).decodeBlock data := by
  obtain ⟨level, encoder, _ | reader, predictor, _ | _⟩ := c
  · rfl
  · rfl
  · exact Step.map_andThen _ _ _ _ fun _ => rfl
  · rfl

theorem endDecode_inUse (c : Flate) :
    c.endDecode.map (inUse .decode) = (c.inUse .decode).endDecode := by
  rw [endDecode, endDecode, ← decodeBlock_inUse]
  refine Step.map_andThen _ _ _ _ fun s => ?_
  cases h : s.finished <;> simp [inUse, h]
  rfl

end Flate

namespace Crypt

/-- A start that gets its cipher sets handle and session; one that does not sets neither. -/
theorem beginEncode_fresh (c : Crypt) (ctx : CryptoContext) :
    (∃ ctx' e, c.beginEncode ctx = (ctx', .stop { c with session := .idle } e) ∧
      c.fresh.beginEncode ctx = (ctx', .stop c.fresh e)) ∨
    c.beginEncode ctx = c.fresh.beginEncode ctx := by
  have hresolve : resolve { c.fresh with session := .idle } c.fresh.cipher ctx =
      resolve { c with session := .idle } c.cipher ctx := rfl
  simp only [beginEncode, hresolve]
  rcases resolve { c with session := .idle } c.cipher ctx with ⟨ctx', e | handle⟩
  · exact .inl ⟨ctx', e, rfl, rfl⟩
  · exact .inr rfl

theorem beginDecode_fresh (c : Crypt) (parms : Option DecodeParms) (ctx : CryptoContext) :
    (∃ ctx' e, c.beginDecode parms ctx = (ctx', .stop { c with session := .idle } e) ∧
      c.fresh.beginDecode parms ctx = (ctx', .stop c.fresh e)) ∨
    c.beginDecode parms ctx = c.fresh.beginDecode parms ctx := by
  have hcipher : decodeCipher { c.fresh with session := .idle } parms =
      decodeCipher { c with session := .idle } parms := rfl
  simp only [beginDecode, hcipher]
  rcases decodeCipher { c with session := .idle } parms with e | cipher
  · exact .inl ⟨ctx, e, rfl, rfl⟩
  have hresolve : resolve { c.fresh with session := .idle } cipher ctx =
      resolve { c with session := .idle } cipher ctx := rfl
  simp only [hresolve]
  rcases resolve { c with session := .idle } cipher ctx with ⟨ctx', e | handle⟩
  · exact .inl ⟨ctx', e, rfl, rfl⟩
  · exact .inr rfl

end Crypt

namespace CryptoContext

theorem Matches.symm {ctx ctx' : CryptoContext} (h : ctx.Matches ctx') : ctx'.Matches ctx :=
  Eq.symm h

theorem entropy_load (ctx : CryptoContext) : ctx.load.1.entropy = ctx.entropy := by
  unfold load
  split
  · rfl
  · split
    · rfl
    · split <;> rfl

end CryptoContext

namespace Crypt

theorem entropy_resolve (c : Crypt) (cipher : CipherKind) (ctx : CryptoContext) :
    (c.resolve cipher ctx).1.entropy = ctx.entropy := by
  unfold resolve
  split
  · rfl
  · exact ctx.entropy_load

theorem entropy_beginDecode (c : Crypt) (parms : Option DecodeParms) (ctx : CryptoContext) :
    (c.beginDecode parms ctx).1.entropy = ctx.entropy := by
  unfold beginDecode
  dsimp only
  split
  next => rfl
  next cipher _ =>
    have hresolve := entropy_resolve { c with session := .idle } cipher ctx
    split
    next h => rwa [h] at hresolve
    next h => rwa [h] at hresolve

/-- From the same entropy comes the same IV. -/
theorem openEncode_alike (c : Crypt) (handle : CipherHandle) {ctx ctx' : CryptoContext}
    (h : ctx.entropy = ctx'.entropy) :
    (c.openEncode handle ctx).2 = (c.openEncode handle ctx').2 ∧
      (c.openEncode handle ctx).1.entropy = (c.openEncode handle ctx').1.entropy := by
  unfold openEncode
  cases handle.kind with
  | rc4 =>
    dsimp only
    split
    · exact ⟨rfl, h⟩
    · exact ⟨rfl, h⟩
  | aes128Cbc | aes256Cbc =>
    cases c.iv with
    | some iv =>
      dsimp only
      split
      · exact ⟨rfl, h⟩
      · exact ⟨rfl, h⟩
    | none =>
      dsimp only [CryptoContext.drawIv]
      rw [h]
      split
      · exact ⟨rfl, rfl⟩
      · exact ⟨rfl, rfl⟩

theorem beginEncode_alike (c : Crypt) {ctx ctx' : CryptoContext} (h : ctx.Matches ctx')
    (hentropy : ctx.entropy = ctx'.entropy) :
    (c.beginEncode ctx).2 = (c.beginEncode ctx').2 ∧
      (c.beginEncode ctx).1.entropy = (c.beginEncode ctx').1.entropy := by
  have hresolve := resolve_congr { c with session := .idle } c.cipher h
  have hsame := entropy_resolve { c with session := .idle } c.cipher ctx
  have hsame' := entropy_resolve { c with session := .idle } c.cipher ctx'
  rw [hentropy, ← hsame'] at hsame
  unfold beginEncode
  dsimp only
  revert hresolve hsame
  rcases resolve { c with session := .idle } c.cipher ctx with ⟨ctx₁, result⟩
  rcases resolve { c with session := .idle } c.cipher ctx' with ⟨ctx₂, result'⟩
  rintro ⟨⟩ hsame
  cases result with
  | error e => exact ⟨rfl, hsame⟩
  | ok handle => exact openEncode_alike _ handle hsame

end Crypt

namespace Codec

/-- The two contexts serve a session of this direction alike: they offer the same ciphers, and if an
IV is to be drawn it is the same one. -/
def MeetsAlike (direction : Direction) (ctx ctx' : CryptoContext) : Codec → Prop
  | .runLength _ | .lzw _ | .ascii85 _ | .asciiHex _ | .flate _ => True
  | .crypt c => ctx.Matches ctx' ∧
    (direction = .encode → c.IsFixed ∨ ctx.entropy = ctx'.entropy)

section
variable {c d : Codec} {ctx ctx' : CryptoContext} {direction : Direction}
  {parms : Option DecodeParms}

theorem meetsAlike_fresh :
    c.fresh.MeetsAlike direction ctx ctx' ↔ c.MeetsAlike direction ctx ctx' := by cases c <;> rfl

theorem meetsAlike_of_matches (h : ctx.Matches ctx') (hentropy : ctx.entropy = ctx'.entropy) :
    c.MeetsAlike direction ctx ctx' := by
  cases c with
  | crypt c => exact ⟨h, fun _ => .inr hentropy⟩
  | runLength | lzw | ascii85 | asciiHex | flate => trivial

theorem meetsAlike_self : c.MeetsAlike direction ctx ctx := meetsAlike_of_matches (.refl ctx) rfl

theorem context_start_fresh (c : Codec) (direction : Direction) (ctx : CryptoContext)
    (parms : Option DecodeParms) :
    (c.start direction ctx parms).1 = (c.fresh.start direction ctx parms).1 := by
  cases direction with
  | encode =>
    cases c with
    | crypt c =>
      simp only [start, beginEncode, fresh]
      rcases c.beginEncode_fresh ctx with ⟨ctx', e, hstop, hstop'⟩ | hsame
      · rw [hstop, hstop']
      · rw [hsame]
    | runLength | lzw | ascii85 | asciiHex | flate => rfl
  | decode =>
    cases c with
    | crypt c =>
      simp only [start, beginDecode, fresh]
      rcases c.beginDecode_fresh parms ctx with ⟨ctx', e, hstop, hstop'⟩ | hsame
      · rw [hstop, hstop']
      · rw [hsame]
    | runLength | lzw | ascii85 | asciiHex | flate => rfl

/-- What a start does to the context depends on the settings alone. -/
theorem context_start (h : c.fresh = d.fresh) :
    (c.start direction ctx parms).1 = (d.start direction ctx parms).1 := by
  rw [context_start_fresh, h, ← context_start_fresh]

theorem start_congr (h : c.MeetsAlike direction ctx ctx') :
    (c.start direction ctx parms).2 = (c.start direction ctx' parms).2 := by
  cases c with
  | crypt c =>
    obtain ⟨hmatches, hiv⟩ := h
    cases direction with
    | decode => exact congrArg (Step.map Codec.crypt) (c.beginDecode_congr parms hmatches)
    | encode =>
      refine congrArg (Step.map Codec.crypt) ?_
      rcases hiv rfl with hfixed | hentropy
      · exact Crypt.beginEncode_congr hfixed hmatches
      · exact (c.beginEncode_alike hmatches hentropy).1
  | runLength | lzw | ascii85 | asciiHex | flate => cases direction <;> rfl

theorem entropy_start (h : ctx.Matches ctx') (hentropy : ctx.entropy = ctx'.entropy) :
    (c.start direction ctx parms).1.entropy = (c.start direction ctx' parms).1.entropy := by
  cases c with
  | crypt c =>
    cases direction with
    | encode => exact (c.beginEncode_alike h hentropy).2
    | decode =>
      have hsame := c.entropy_beginDecode parms ctx
      have hsame' := c.entropy_beginDecode parms ctx'
      exact (hsame.trans hentropy).trans hsame'.symm
  | runLength | lzw | ascii85 | asciiHex | flate =>
    cases direction with
    | encode => exact hentropy
    | decode => exact hentropy

/-- Contexts that serve a codec alike still do so after sessions of others have begun under them. -/
theorem MeetsAlike.start {c' : Codec} (h : c'.MeetsAlike direction ctx ctx')
    (hsettings : c.fresh = d.fresh) : c'.MeetsAlike direction (c.start direction ctx parms).1
      (d.start direction ctx' parms).1 := by
  rw [← context_start hsettings]
  cases c' with
  | crypt c' =>
    obtain ⟨hmatches, hiv⟩ := h
    have hbefore := c.start_matches direction ctx parms
    have hafter := (c.start_matches direction ctx' parms).symm
    refine ⟨(hbefore.trans hmatches).trans hafter, ?_⟩
    intro hencode
    exact (hiv hencode).imp_right (entropy_start hmatches)
  | runLength | lzw | ascii85 | asciiHex | flate => trivial

end

/-- What a session of this direction works on, with everything else as it was before the first
session. -/
def inUse (direction : Direction) : Codec → Codec
  | .runLength c => .runLength (c.inUse direction)
  | .lzw c => .lzw (c.inUse direction)
  | .ascii85 c => .ascii85 (c.inUse direction)
  | .asciiHex c => .asciiHex (c.inUse direction)
  | .flate c => .flate (c.inUse direction)
  | .crypt c => .crypt c

@[simp] theorem fresh_inUse (c : Codec) (direction : Direction) :
    (c.inUse direction).fresh = c.fresh := by cases c <;> cases direction <;> rfl

@[simp] theorem fresh_fresh (c : Codec) : c.fresh.fresh = c.fresh := by cases c <;> rfl

theorem block_inUse (c : Codec) (direction : Direction) (data : Bytes) :
    (c.block direction data).map (inUse direction) = (c.inUse direction).block direction data := by
  cases direction with
  | encode =>
    cases c with
    | runLength c => exact congrArg (Step.map Codec.runLength) (c.encodeBlock_inUse data)
    | lzw c => exact congrArg (Step.map Codec.lzw) (c.encodeBlock_inUse data)
    | ascii85 c => exact congrArg (Step.map Codec.ascii85) (c.encodeBlock_inUse data)
    | flate c => exact congrArg (Step.map Codec.flate) (c.encodeBlock_inUse data)
    | asciiHex | crypt => rfl
  | decode =>
    cases c with
    | lzw c => exact congrArg (Step.map Codec.lzw) (c.decodeBlock_inUse data)
    | flate c => exact congrArg (Step.map Codec.flate) (c.decodeBlock_inUse data)
    | runLength | ascii85 | asciiHex | crypt => rfl

theorem finish_inUse (c : Codec) (direction : Direction) :
    (c.finish direction).map (inUse direction) = (c.inUse direction).finish direction := by
  cases direction with
  | encode =>
    cases c with
    | runLength c => exact congrArg (Step.map Codec.runLength) c.endEncode_inUse
    | lzw c => exact congrArg (Step.map Codec.lzw) c.endEncode_inUse
    | ascii85 c => exact congrArg (Step.map Codec.ascii85) c.endEncode_inUse
    | flate c => exact congrArg (Step.map Codec.flate) c.endEncode_inUse
    | asciiHex | crypt => rfl
  | decode =>
    cases c with
    | runLength c => exact congrArg (Step.map Codec.runLength) c.endDecode_inUse
    | lzw c => exact congrArg (Step.map Codec.lzw) c.endDecode_inUse
    | flate c => exact congrArg (Step.map Codec.flate) c.endDecode_inUse
    | ascii85 | asciiHex | crypt => rfl

/-- Two steps of a session that come to the same: same spans, same fault, and codecs that neither
this session nor, having the same settings, a later one can tell apart. -/
structure Parallel (direction : Direction) (r r' : Step Codec) : Prop where
  spans : r.spans = r'.spans
  fault : r.fault = r'.fault
  settings : r.state.fresh = r'.state.fresh
  inUse : r.fault = none → r.state.inUse direction = r'.state.inUse direction

section
variable {direction : Direction} {r r' r'' : Step Codec}

theorem Parallel.refl (direction : Direction) (r : Step Codec) : Parallel direction r r :=
  ⟨rfl, rfl, rfl, fun _ => rfl⟩

theorem Parallel.symm (h : Parallel direction r r') : Parallel direction r' r :=
  ⟨h.spans.symm, h.fault.symm, h.settings.symm, fun hf => (h.inUse (h.fault.trans hf)).symm⟩

theorem Parallel.trans (h : Parallel direction r r') (h' : Parallel direction r' r'') :
    Parallel direction r r'' :=
  ⟨h.spans.trans h'.spans, h.fault.trans h'.fault, h.settings.trans h'.settings,
    fun hf => (h.inUse hf).trans (h'.inUse (h.fault.symm.trans hf))⟩

/-- After an error there is nothing left that the session could work on. -/
theorem Parallel.of_fault {e : Error} (he : r.fault = some e) (hspans : r.spans = r'.spans)
    (hfault : r.fault = r'.fault) (hsettings : r.state.fresh = r'.state.fresh) :
    Parallel direction r r' := by
  refine ⟨hspans, hfault, hsettings, ?_⟩
  intro hnone
  rw [he] at hnone
  cases hnone

theorem parallel_of_inUse (h : r.map (inUse direction) = r'.map (inUse direction)) :
    Parallel direction r r' := by
  have hstate : r.state.inUse direction = r'.state.inUse direction := congrArg Step.state h
  have hspans := congrArg Step.spans h
  have hfault := congrArg Step.fault h
  have hsettings := congrArg fresh hstate
  simp only [Step.spans_map, Step.fault_map, fresh_inUse] at hspans hfault hsettings
  exact ⟨hspans, hfault, hsettings, fun _ => hstate⟩

end

section
variable {c c' : Codec} {direction : Direction}

theorem block_parallel (h : c.inUse direction = c'.inUse direction) (data : Bytes) :
    Parallel direction (c.block direction data) (c'.block direction data) := by
  apply parallel_of_inUse
  rw [block_inUse, block_inUse, h]

theorem finish_parallel (h : c.inUse direction = c'.inUse direction) :
    Parallel direction (c.finish direction) (c'.finish direction) := by
  apply parallel_of_inUse
  rw [finish_inUse, finish_inUse, h]

/-- A start sets all that the session works on, or fails for reasons of its own. -/
theorem start_fresh_parallel (c : Codec) (direction : Direction) (ctx : CryptoContext)
    (parms : Option DecodeParms) :
    Parallel direction (c.start direction ctx parms).2 (c.fresh.start direction ctx parms).2 := by
  cases direction with
  | encode =>
    cases c with
    | crypt c =>
      simp only [start, beginEncode, fresh]
      rcases c.beginEncode_fresh ctx with ⟨ctx', e, hstop, hstop'⟩ | hsame
      · rw [hstop, hstop']
        exact .of_fault rfl rfl rfl rfl
      · rw [hsame]
        exact .refl _ _
    | runLength | lzw | ascii85 | asciiHex | flate => exact ⟨rfl, rfl, rfl, fun _ => rfl⟩
  | decode =>
    cases c with
    | crypt c =>
      simp only [start, beginDecode, fresh]
      rcases c.beginDecode_fresh parms ctx with ⟨ctx', e, hstop, hstop'⟩ | hsame
      · rw [hstop, hstop']
        exact .of_fault rfl rfl rfl rfl
      · rw [hsame]
        exact .refl _ _
    | lzw c =>
      simp only [start, beginDecode, fresh, Lzw.beginDecode]
      cases Lzw.settings parms with
      | error e => exact .of_fault rfl rfl rfl rfl
      | ok settings => exact ⟨rfl, rfl, rfl, fun _ => rfl⟩
    | flate c =>
      simp only [start, beginDecode, fresh, Flate.beginDecode]
      cases Predictor.ofParms parms with
      | error e => exact .of_fault rfl rfl rfl rfl
      | ok predictor => exact ⟨rfl, rfl, rfl, fun _ => rfl⟩
    | runLength | ascii85 | asciiHex => exact ⟨rfl, rfl, rfl, fun _ => rfl⟩

theorem start_parallel (h : c.fresh = c'.fresh) {ctx ctx' : CryptoContext}
    (hctx : c.MeetsAlike direction ctx ctx') (parms : Option DecodeParms) :
    Parallel direction (c.start direction ctx parms).2 (c'.start direction ctx' parms).2 := by
  have hfresh := c.start_fresh_parallel direction ctx' parms
  have hfresh' := c'.start_fresh_parallel direction ctx' parms
  rw [← h] at hfresh'
  rw [start_congr hctx]
  exact hfresh.trans hfresh'.symm

end

end Codec
end PdfStream
