import PdfStream.Proofs.Ascii85
import PdfStream.Proofs.AsciiHex
import PdfStream.Proofs.Crypt
import PdfStream.Proofs.Flate.RoundTrip
import PdfStream.Proofs.Lzw.RoundTrip
import PdfStream.Proofs.RunLength

/-!
What the six codecs have in common. Once started, a session goes by the concatenation of its blocks;
no session changes a codec's settings; and decoding under the right parameters undoes encoding.
-/
namespace PdfStream
namespace Codec

theorem start_keeps {P : CryptoContext → Prop} (hP : CryptoContext.IsKept P) (c : Codec)
    (direction : Direction) {ctx : CryptoContext} (h : P ctx) (parms : Option DecodeParms) :
    P (c.start direction ctx parms).1 := by
  cases direction with
  | encode =>
    cases c with
    | crypt c => exact c.beginEncode_keeps hP h
    | runLength | lzw | ascii85 | asciiHex | flate => exact h
  | decode =>
    cases c with
    | crypt c => exact c.beginDecode_keeps hP parms h
    | runLength | lzw | ascii85 | asciiHex | flate => exact h

theorem start_matches (c : Codec) (direction : Direction) (ctx : CryptoContext)
    (parms : Option DecodeParms) : (c.start direction ctx parms).1.Matches ctx :=
  c.start_keeps (CryptoContext.isKept_matches ctx) direction (.refl ctx) parms

/-- What the codec encodes depends on the data alone: it leaves no choice of a compressed form and
draws no IV. -/
def IsDeterministic : Codec → Prop
  | .runLength _ | .lzw _ | .ascii85 _ | .asciiHex _ => True
  | .flate _ => False
  | .crypt c => c.IsFixed

theorem oneShot_congr {c : Codec} {direction : Direction} {ctx ctx' : CryptoContext}
    {parms : Option DecodeParms}
    (h : (c.start direction ctx parms).2 = (c.start direction ctx' parms).2) (data : Bytes) :
    c.oneShot direction ctx parms data = c.oneShot direction ctx' parms data := by
  unfold oneShot
  revert h
  rcases c.start direction ctx parms with ⟨ctx₁, step⟩
  rcases c.start direction ctx' parms with ⟨ctx₂, step'⟩
  rintro ⟨⟩
  rfl

theorem beginEncode_congr {c : Codec} (hc : c.IsDeterministic) {ctx ctx' : CryptoContext}
    (h : ctx.Matches ctx') : (c.beginEncode ctx).2 = (c.beginEncode ctx').2 := by
  cases c with
  | crypt c => exact congrArg (Step.map Codec.crypt) (c.beginEncode_congr hc h)
  | runLength | lzw | ascii85 | asciiHex | flate => rfl

theorem beginDecode_congr (c : Codec) (parms : Option DecodeParms) {ctx ctx' : CryptoContext}
    (h : ctx.Matches ctx') : (c.beginDecode ctx parms).2 = (c.beginDecode ctx' parms).2 := by
  cases c with
  | crypt c => exact congrArg (Step.map Codec.crypt) (c.beginDecode_congr parms h)
  | runLength | lzw | ascii85 | asciiHex | flate => rfl

end Codec

namespace RunLength

theorem encode_computes (c : RunLength) :
    (Codec.coder .encode).Computes (.runLength c) (encoded c) :=
  (encoding_computes c).embed (Codec.coder .encode) Codec.runLength (fun _ _ => rfl) fun _ => rfl

theorem decode_computes (c : RunLength) :
    (Codec.coder .decode).Computes (.runLength c) (decoded c.expect) :=
  (decoding_computes c).embed (Codec.coder .decode) Codec.runLength (fun _ _ => rfl) fun _ => rfl

theorem encode_makes (c : RunLength) (ctx : CryptoContext) (parms : Option DecodeParms) :
    (Codec.runLength c).Makes .encode ctx parms (encoded { c with literal := [], run := none }) :=
  Codec.makes_of_quiet rfl (encode_computes _)

theorem decode_makes (c : RunLength) (ctx : CryptoContext) (parms : Option DecodeParms) :
    (Codec.runLength c).Makes .decode ctx parms (decoded .header) :=
  Codec.makes_of_quiet rfl (decode_computes { c with expect := .header })

end RunLength

namespace Ascii85

theorem encode_computes (c : Ascii85) :
    (Codec.coder .encode).Computes (.ascii85 c) (encoded c) :=
  (encoding_computes c).embed (Codec.coder .encode) Codec.ascii85 (fun _ _ => rfl) fun _ => rfl

theorem decode_computes (c : Ascii85) :
    (Codec.coder .decode).Computes (.ascii85 c) (decoded c) :=
  (decoding_computes c).embed (Codec.coder .decode) Codec.ascii85 (fun _ _ => rfl) fun _ => rfl

theorem encode_makes (c : Ascii85) (ctx : CryptoContext) (parms : Option DecodeParms) :
    (Codec.ascii85 c).Makes .encode ctx parms (encoded { c with group := [] }) :=
  Codec.makes_of_quiet rfl (encode_computes _)

theorem decode_makes (c : Ascii85) (ctx : CryptoContext) (parms : Option DecodeParms) :
    (Codec.ascii85 c).Makes .decode ctx parms (decoded {}) :=
  Codec.makes_of_quiet rfl (decode_computes {})

end Ascii85

namespace AsciiHex

theorem encode_computes (c : AsciiHex) :
    (Codec.coder .encode).Computes (.asciiHex c) fun data => some (encoded data) :=
  (encoding_computes c).embed (Codec.coder .encode) Codec.asciiHex (fun _ _ => rfl) fun _ => rfl

theorem decode_computes (c : AsciiHex) :
    (Codec.coder .decode).Computes (.asciiHex c) (decoded c) :=
  (decoding_computes c).embed (Codec.coder .decode) Codec.asciiHex (fun _ _ => rfl) fun _ => rfl

theorem encode_makes (c : AsciiHex) (ctx : CryptoContext) (parms : Option DecodeParms) :
    (Codec.asciiHex c).Makes .encode ctx parms fun data => some (encoded data) :=
  Codec.makes_of_quiet rfl (encode_computes c)

theorem decode_makes (c : AsciiHex) (ctx : CryptoContext) (parms : Option DecodeParms) :
    (Codec.asciiHex c).Makes .decode ctx parms (decoded {}) :=
  Codec.makes_of_quiet rfl (decode_computes {})

end AsciiHex

namespace Crypt

theorem encode_computes (c : Crypt) :
    (Codec.coder .encode).Computes (.crypt c) (encoded c) :=
  (encoding_computes c).embed (Codec.coder .encode) Codec.crypt (fun _ _ => rfl) fun _ => rfl

theorem decode_computes (c : Crypt) :
    (Codec.coder .decode).Computes (.crypt c) (decoded c) :=
  (decoding_computes c).embed (Codec.coder .decode) Codec.crypt (fun _ _ => rfl) fun _ => rfl

theorem encode_makes (c : Crypt) (ctx : CryptoContext) (parms : Option DecodeParms) :
    (Codec.crypt c).Makes .encode ctx parms (c.encodes ctx) :=
  Codec.makes_of_computes fun _ => encode_computes _

theorem decode_makes (c : Crypt) (ctx : CryptoContext) (parms : Option DecodeParms) :
    (Codec.crypt c).Makes .decode ctx parms (c.decodes parms ctx) :=
  Codec.makes_of_computes fun _ => decode_computes _

end Crypt

namespace Codec

theorem isSteady_beginEncode (c : Codec) (ctx : CryptoContext) (data : Bytes) :
    (coder .encode).IsSteady (c.beginEncode ctx).2.state data := by
  cases c with
  | runLength c => exact ((RunLength.encode_computes _).of data).isSteady
  | lzw c => exact ((Lzw.encode_computes c.isEncoding_beginEncode).of data).isSteady
  | ascii85 c => exact ((Ascii85.encode_computes _).of data).isSteady
  | asciiHex c => exact ((AsciiHex.encode_computes c).of data).isSteady
  | flate c => exact ((c.encode_computes { level := c.level }).of data).isSteady
  | crypt c => exact ((Crypt.encode_computes _).of data).isSteady

/-- The blocks of these data do not matter for decoding: an LZW stream is calm. -/
def ReadsCalm (parms : Option DecodeParms) (data : Bytes) : Codec → Prop
  | .lzw _ => Lzw.IsCalmData parms data
  | .runLength _ | .ascii85 _ | .asciiHex _ | .flate _ | .crypt _ => True

instance decidableReadsCalm (parms : Option DecodeParms) (data : Bytes) :
    (c : Codec) → Decidable (c.ReadsCalm parms data)
  | .lzw _ => inferInstanceAs (Decidable (Lzw.IsCalmData parms data))
  | .runLength _ | .ascii85 _ | .asciiHex _ | .flate _ | .crypt _ => isTrue trivial

theorem ReadsCalm.of_append {c : Codec} {parms : Option DecodeParms} {data more : Bytes}
    (h : c.ReadsCalm parms (data ++ more)) : c.ReadsCalm parms data := by
  cases c with
  | lzw c => exact Lzw.isCalmData_of_append h
  | runLength | ascii85 | asciiHex | flate | crypt => trivial

theorem readsCalm_of_kind_ne {c : Codec} (h : c.kind ≠ .lzw) (parms : Option DecodeParms)
    (data : Bytes) : c.ReadsCalm parms data := by
  cases c with
  | lzw c => exact absurd rfl h
  | runLength | ascii85 | asciiHex | flate | crypt => trivial

/-- Only the kind of the codec matters. -/
theorem ReadsCalm.of_kind {c d : Codec} {parms : Option DecodeParms} {data : Bytes}
    (h : c.ReadsCalm parms data) (hkind : d.kind = c.kind) : d.ReadsCalm parms data := by
  cases d with
  | lzw d =>
    cases c with
    | lzw c => exact h
    | runLength | ascii85 | asciiHex | flate | crypt => cases hkind
  | runLength | ascii85 | asciiHex | flate | crypt => trivial

theorem isSteady_beginDecode {c : Codec} {ctx : CryptoContext} {parms : Option DecodeParms}
    {data : Bytes} (hcalm : c.ReadsCalm parms data)
    (h : (c.beginDecode ctx parms).2.fault = none) :
    (coder .decode).IsSteady (c.beginDecode ctx parms).2.state data := by
  cases c with
  | runLength c => exact ((RunLength.decode_computes _).of data).isSteady
  | lzw c => exact (Lzw.decode_computesOf (Lzw.isDecoding_beginDecode hcalm h)).isSteady
  | ascii85 c => exact ((Ascii85.decode_computes _).of data).isSteady
  | asciiHex c => exact ((AsciiHex.decode_computes _).of data).isSteady
  | flate c => exact ((Flate.decode_computes (Flate.isDecoding_beginDecode h)).of data).isSteady
  | crypt c => exact ((Crypt.decode_computes _).of data).isSteady

theorem isSteady_start {c : Codec} {direction : Direction} {ctx : CryptoContext}
    {parms : Option DecodeParms} {data : Bytes}
    (hcalm : direction = .decode → c.ReadsCalm parms data)
    (h : (c.start direction ctx parms).2.fault = none) :
    (coder direction).IsSteady (c.start direction ctx parms).2.state data := by
  cases direction with
  | encode => exact c.isSteady_beginEncode ctx data
  | decode => exact isSteady_beginDecode (hcalm rfl) h

end Codec

namespace Lzw

/-- The codec as it was before its first session. -/
def fresh (c : Lzw) : Lzw := { earlyChange := c.earlyChange }

theorem fresh_encodeBlock (c : Lzw) (data : Bytes) :
    (c.encodeBlock data).state.fresh = c.fresh := by
  unfold encodeBlock
  split <;> rfl

theorem fresh_endEncode (c : Lzw) : c.endEncode.state.fresh = c.fresh := by
  unfold endEncode
  split <;> rfl

theorem fresh_beginDecode (c : Lzw) (parms : Option DecodeParms) :
    (c.beginDecode parms).state.fresh = c.fresh := by
  unfold beginDecode
  split <;> rfl

theorem fresh_decodeBlock (c : Lzw) (data : Bytes) :
    (c.decodeBlock data).state.fresh = c.fresh := by
  unfold decodeBlock
  split
  · rfl
  · split
    · rfl
    · exact Step.andThen_keeps (P := fun s : Lzw => s.fresh = c.fresh) rfl fun _ h => h

theorem fresh_endDecode (c : Lzw) : c.endDecode.state.fresh = c.fresh := by
  refine Step.andThen_keeps (P := fun s : Lzw => s.fresh = c.fresh) (c.fresh_decodeBlock [])
    fun s h => ?_
  dsimp only
  split
  · exact h
  · exact h

end Lzw

namespace Flate

/-- The codec as it was before its first session. -/
def fresh (c : Flate) : Flate := { level := c.level }

theorem fresh_encodeBlock (c : Flate) (data : Bytes) :
    (c.encodeBlock data).state.fresh = c.fresh := by
  unfold encodeBlock
  split
  · rfl
  · split <;> rfl

theorem fresh_endEncode (c : Flate) : c.endEncode.state.fresh = c.fresh := by
  unfold endEncode
  split <;> rfl

theorem fresh_beginDecode (c : Flate) (parms : Option DecodeParms) :
    (c.beginDecode parms).state.fresh = c.fresh := by
  unfold beginDecode
  split <;> rfl

theorem fresh_decodeBlock (c : Flate) (data : Bytes) :
    (c.decodeBlock data).state.fresh = c.fresh := by
  unfold decodeBlock
  split
  · rfl
  · split
    · rfl
    · exact Step.andThen_keeps (P := fun s : Flate => s.fresh = c.fresh) rfl fun _ h => h

theorem fresh_endDecode (c : Flate) : c.endDecode.state.fresh = c.fresh := by
  refine Step.andThen_keeps (P := fun s : Flate => s.fresh = c.fresh) (c.fresh_decodeBlock [])
    fun s h => ?_
  dsimp only
  split
  · exact h
  · exact h

end Flate

namespace Crypt

/-- The codec as it was before its first session. -/
def fresh (c : Crypt) : Crypt := { cipher := c.cipher, key := c.key, iv := c.iv }

theorem fresh_openEncode (c : Crypt) (handle : CipherHandle) (ctx : CryptoContext) :
    (c.openEncode handle ctx).2.state.fresh = c.fresh := by
  unfold openEncode
  cases handle.kind with
  | rc4 =>
    dsimp only
    split <;> rfl
  | aes128Cbc | aes256Cbc =>
    dsimp only
    split <;> rfl

theorem fresh_beginEncode (c : Crypt) (ctx : CryptoContext) :
    (c.beginEncode ctx).2.state.fresh = c.fresh := by
  unfold beginEncode
  dsimp only
  split
  · rfl
  · exact fresh_openEncode _ _ _

theorem fresh_encodeBlock (c : Crypt) (data : Bytes) :
    (c.encodeBlock data).state.fresh = c.fresh := by
  unfold encodeBlock
  split <;> rfl

theorem fresh_endEncode (c : Crypt) : c.endEncode.state.fresh = c.fresh := by
  unfold endEncode
  dsimp only
  split <;> rfl

theorem fresh_openDecode (c : Crypt) (handle : CipherHandle) :
    (c.openDecode handle).state.fresh = c.fresh := by
  unfold openDecode
  cases handle.kind with
  | rc4 =>
    dsimp only
    split <;> rfl
  | aes128Cbc | aes256Cbc => rfl

theorem fresh_beginDecode (c : Crypt) (parms : Option DecodeParms) (ctx : CryptoContext) :
    (c.beginDecode parms ctx).2.state.fresh = c.fresh := by
  unfold beginDecode
  dsimp only
  split
  · rfl
  · split
    · rfl
    · exact fresh_openDecode _ _

theorem fresh_decodeBlock (c : Crypt) (data : Bytes) :
    (c.decodeBlock data).state.fresh = c.fresh := by
  unfold decodeBlock
  split
  · rfl
  · dsimp only
    split
    · rfl
    · split <;> rfl
  · rfl
  · rfl

theorem fresh_endDecode (c : Crypt) : c.endDecode.state.fresh = c.fresh := by
  unfold endDecode
  dsimp only
  split <;> rfl

end Crypt

namespace Codec

/-- The codec as it was before its first session. -/
def fresh : Codec → Codec
  | .runLength _ => .runLength {}
  | .lzw c => .lzw c.fresh
  | .ascii85 _ => .ascii85 {}
  | .asciiHex _ => .asciiHex {}
  | .flate c => .flate c.fresh
  | .crypt c => .crypt c.fresh

@[simp] theorem kind_fresh (c : Codec) : c.fresh.kind = c.kind := by cases c <;> rfl

theorem kind_of_fresh {c c' : Codec} (h : c'.fresh = c.fresh) : c'.kind = c.kind := by
  rw [← kind_fresh, h, kind_fresh]

theorem fresh_start (c : Codec) (direction : Direction) (ctx : CryptoContext)
    (parms : Option DecodeParms) : (c.start direction ctx parms).2.state.fresh = c.fresh := by
  cases direction with
  | encode =>
    cases c with
    | crypt c => exact congrArg Codec.crypt (c.fresh_beginEncode ctx)
    | runLength | lzw | ascii85 | asciiHex | flate => rfl
  | decode =>
    cases c with
    | lzw c => exact congrArg Codec.lzw (c.fresh_beginDecode parms)
    | flate c => exact congrArg Codec.flate (c.fresh_beginDecode parms)
    | crypt c => exact congrArg Codec.crypt (c.fresh_beginDecode parms ctx)
    | runLength | ascii85 | asciiHex => rfl

theorem fresh_block (c : Codec) (direction : Direction) (data : Bytes) :
    (c.block direction data).state.fresh = c.fresh := by
  cases direction with
  | encode =>
    cases c with
    | lzw c => exact congrArg Codec.lzw (c.fresh_encodeBlock data)
    | flate c => exact congrArg Codec.flate (c.fresh_encodeBlock data)
    | crypt c => exact congrArg Codec.crypt (c.fresh_encodeBlock data)
    | runLength | ascii85 | asciiHex => rfl
  | decode =>
    cases c with
    | lzw c => exact congrArg Codec.lzw (c.fresh_decodeBlock data)
    | flate c => exact congrArg Codec.flate (c.fresh_decodeBlock data)
    | crypt c => exact congrArg Codec.crypt (c.fresh_decodeBlock data)
    | runLength | ascii85 | asciiHex => rfl

theorem fresh_finish (c : Codec) (direction : Direction) :
    (c.finish direction).state.fresh = c.fresh := by
  cases direction with
  | encode =>
    cases c with
    | lzw c => exact congrArg Codec.lzw c.fresh_endEncode
    | flate c => exact congrArg Codec.flate c.fresh_endEncode
    | crypt c => exact congrArg Codec.crypt c.fresh_endEncode
    | runLength | ascii85 | asciiHex => rfl
  | decode =>
    cases c with
    | lzw c => exact congrArg Codec.lzw c.fresh_endDecode
    | flate c => exact congrArg Codec.flate c.fresh_endDecode
    | crypt c => exact congrArg Codec.crypt c.fresh_endDecode
    | runLength | ascii85 | asciiHex => rfl

end Codec

namespace Crypt

theorem decodes_encodes_fresh {ctx ctx' : CryptoContext} (hctx : ctx.IsLive) (hctx' : ctx'.IsLive)
    {c c' : Crypt} {parms : Option DecodeParms} (hc : c.IsServable)
    (hparms : c.decodeCipher parms = .ok c.cipher) (hfresh : c'.fresh = c.fresh) (data : Bytes) :
    ∃ out, c.encodes ctx data = some out ∧ c'.decodes parms ctx' out = some data := by
  have hkey := congrArg key hfresh
  have hcipher := congrArg (decodeCipher · parms) hfresh
  have hsame : c'.key = c.key := hkey
  have hown : c'.decodeCipher parms = .ok c.cipher := hcipher.trans hparms
  exact decodes_encodes hctx hctx' hc hsame hown data

end Crypt

namespace Codec

/-- With these parameters, decoding undoes encoding under any context that serves the codec. -/
def IsReversible (parms : Option DecodeParms) : Codec → Prop
  | .runLength _ | .ascii85 _ | .asciiHex _ => True
  | .lzw c => Lzw.Names c.earlyChange parms
  | .flate _ => Predictor.IsAbsent parms
  | .crypt c => c.IsServable ∧ c.decodeCipher parms = .ok c.cipher

/-- Only a Crypt codec asks anything of a context. -/
def IsServedBy (ctx : CryptoContext) : Codec → Prop
  | .runLength _ | .lzw _ | .ascii85 _ | .asciiHex _ | .flate _ => True
  | .crypt _ => ctx.IsLive

theorem IsServedBy.of_matches {c : Codec} {ctx ctx' : CryptoContext} (h : c.IsServedBy ctx)
    (hmatches : ctx'.Matches ctx) : c.IsServedBy ctx' := by
  cases c with
  | crypt => exact hmatches.isLive_iff.2 h
  | runLength | lzw | ascii85 | asciiHex | flate => trivial

theorem MakesOf.oneShot {c : Codec} {direction : Direction} {ctx : CryptoContext}
    {parms : Option DecodeParms} {data out : Bytes}
    (h : c.MakesOf direction ctx parms data (some out)) :
    c.oneShot direction ctx parms data = .ok out := by
  have hsession := h.eq_oneShot List.flatten_singleton
  rw [h [data] List.flatten_singleton] at hsession
  cases hshot : c.oneShot direction ctx parms data with
  | error e =>
    rw [hshot] at hsession
    cases hsession
  | ok out' =>
    rw [hshot] at hsession
    exact congrArg Except.ok (Option.some.inj hsession).symm

/-- What was encoded of a piece of data is calm. -/
theorem readsCalm_of_oneShot {c : Codec} {parms : Option DecodeParms} (hc : c.IsReversible parms)
    {ctx : CryptoContext} {data out : Bytes} (h : out ∈ (c.oneShot .encode ctx none data).toOption)
    (hshort : data.length ≤ Lzw.Reader.pieceLength) : c.ReadsCalm parms out := by
  cases c with
  | lzw c =>
    rw [((c.encode_makes ctx none).of data).oneShot] at h
    cases h
    exact Lzw.isCalmData_encoded hc hshort
  | runLength | ascii85 | asciiHex | flate | crypt => trivial

/-- Decoding gives back what was encoded, also from a later state of the codec. -/
theorem oneShot_encode_decode {c c' : Codec} {parms : Option DecodeParms}
    (hc : c.IsReversible parms) (hsame : c'.fresh = c.fresh) {ctx ctx' : CryptoContext}
    (hctx : c.IsServedBy ctx) (hctx' : c.IsServedBy ctx') (data : Bytes) :
    ∃ out, c.oneShot .encode ctx none data = .ok out ∧
      (c.ReadsCalm parms out → c'.oneShot .decode ctx' parms out = .ok data) := by
  have hmakes {out : Bytes} {f : Bytes → Option Bytes} {g : Option Bytes}
      (hf : c.Makes .encode ctx none f) (hout : f data = some out)
      (hg : c.ReadsCalm parms out → c'.MakesOf .decode ctx' parms out g) (hdata : g = some data) :
      ∃ out, c.oneShot .encode ctx none data = .ok out ∧
        (c.ReadsCalm parms out → c'.oneShot .decode ctx' parms out = .ok data) := by
    subst hdata
    have hencode := hf.of data
    rw [hout] at hencode
    exact ⟨out, hencode.oneShot, fun hcalm => (hg hcalm).oneShot⟩
  cases c with
  | runLength c =>
    cases c' with
    | runLength c' =>
      obtain ⟨out, hout, hdata⟩ := RunLength.decoded_encoded _ c.bounded_begun rfl data
      exact hmakes (c.encode_makes ctx none) hout
        (fun _ => (c'.decode_makes ctx' parms).of out) hdata
    | lzw | ascii85 | asciiHex | flate | crypt => cases hsame
  | lzw c =>
    cases c' with
    | lzw c' =>
      exact hmakes (c.encode_makes ctx none) rfl (fun hcalm => c'.decode_makesOf hc ctx' hcalm)
        (Lzw.scan_ofBytes_encoded c.earlyChange data)
    | runLength | ascii85 | asciiHex | flate | crypt => cases hsame
  | ascii85 c =>
    cases c' with
    | ascii85 c' =>
      obtain ⟨out, hout, hdata⟩ := Ascii85.decoded_encoded (c := { c with group := [] }) rfl data
      exact hmakes (c.encode_makes ctx none) hout
        (fun _ => (c'.decode_makes ctx' parms).of out) hdata
    | runLength | lzw | asciiHex | flate | crypt => cases hsame
  | asciiHex c =>
    cases c' with
    | asciiHex c' =>
      exact hmakes (c.encode_makes ctx none) rfl (fun _ => (c'.decode_makes ctx' parms).of _)
        (AsciiHex.decoded_encoded data)
    | runLength | lzw | ascii85 | flate | crypt => cases hsame
  | flate c =>
    cases c' with
    | flate c' =>
      obtain ⟨out, hout, hdata⟩ := Flate.Deflate.scan_ofBytes_encoded c.level data
      exact hmakes (c.encode_makes ctx none) hout (fun _ => (c'.decode_makes hc ctx').of out) hdata
    | runLength | lzw | ascii85 | asciiHex | crypt => cases hsame
  | crypt c =>
    cases c' with
    | crypt c' =>
      have hfresh : c'.fresh = c.fresh := Codec.crypt.inj hsame
      obtain ⟨out, hout, hdata⟩ :=
        Crypt.decodes_encodes_fresh hctx hctx' hc.1 hc.2 hfresh data
      exact hmakes (c.encode_makes ctx none) hout
        (fun _ => (c'.decode_makes ctx' parms).of out) hdata
    | runLength | lzw | ascii85 | asciiHex | flate => cases hsame

end Codec
end PdfStream
