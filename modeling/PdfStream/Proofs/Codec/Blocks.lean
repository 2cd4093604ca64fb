import PdfStream.Proofs.Codec.Restart

/-!
Block boundaries do not show in what is encoded. A session of a codec that leaves nothing to choice
is a function of its data, and codecs of the same settings run alike from their start on.
-/
namespace PdfStream
namespace Codec

section
variable {direction : Direction} {c c' : Codec}

theorem Parallel.andThen {r r' : Step Codec} {f f' : Codec → Step Codec}
    (h : Parallel direction r r') (hf : ∀ s s' : Codec, s.inUse direction = s'.inUse direction →
      Parallel direction (f s) (f' s')) :
    Parallel direction (r.andThen f) (r'.andThen f') := by
  cases hr : r.fault with
  | some e =>
    have hr' : r'.fault = some e := h.fault.symm.trans hr
    rwa [Step.andThen_of_fault hr, Step.andThen_of_fault hr']
  | none =>
    have hr' : r'.fault = none := h.fault.symm.trans hr
    have hnext := hf r.state r'.state (h.inUse hr)
    rw [Step.andThen_of_no_fault hr, Step.andThen_of_no_fault hr']
    exact ⟨congrArg₂ (· ++ ·) h.spans hnext.spans, hnext.fault, hnext.settings, hnext.inUse⟩

theorem Parallel.output? {r r' : Step Codec} (h : Parallel direction r r') :
    r.output? = r'.output? := by
  unfold Step.output? Step.bytes
  rw [h.fault, h.spans]

theorem rest_parallel (h : c.inUse direction = c'.inUse direction) (blocks : List Bytes) :
    Parallel direction ((coder direction).session blocks c)
      ((coder direction).session blocks c') := by
  induction blocks generalizing c c' with
  | nil =>
    rw [Coder.session_nil, Coder.session_nil]
    exact finish_parallel h
  | cons data blocks ih =>
    rw [Coder.session_cons, Coder.session_cons]
    exact (block_parallel h data).andThen fun _ _ => ih

theorem session_parallel (h : c.fresh = c'.fresh) {ctx ctx' : CryptoContext}
    (hctx : c.MeetsAlike direction ctx ctx') (parms : Option DecodeParms) (blocks : List Bytes) :
    Parallel direction (c.session direction ctx parms blocks)
      (c'.session direction ctx' parms blocks) :=
  (start_parallel h hctx parms).andThen fun _ _ hsame => rest_parallel hsame blocks

end

/-- Only a Crypt codec can be refused by a context that serves it, for its key. -/
def IsAccepted : Codec → Prop
  | .runLength _ | .lzw _ | .ascii85 _ | .asciiHex _ | .flate _ => True
  | .crypt c => c.IsServable

/-- A session that makes something of all data. -/
def Succeeds (direction : Direction) (ctx : CryptoContext) (parms : Option DecodeParms)
    (c : Codec) : Prop :=
  ∃ f : Bytes → Bytes, c.Makes direction ctx parms fun data => some (f data)

theorem Makes.succeeds {c : Codec} {direction : Direction} {ctx : CryptoContext}
    {parms : Option DecodeParms} {f : Bytes → Option Bytes} (h : c.Makes direction ctx parms f)
    (hf : ∀ data, ∃ out, f data = some out) : c.Succeeds direction ctx parms := by
  choose g hg using hf
  exact ⟨g, fun blocks => (h blocks).trans (hg blocks.flatten)⟩

theorem encode_succeeds {c : Codec} (hc : c.IsAccepted) {ctx : CryptoContext}
    (hctx : c.IsServedBy ctx) (parms : Option DecodeParms) : c.Succeeds .encode ctx parms := by
  cases c with
  | runLength c =>
    apply (c.encode_makes ctx parms).succeeds
    intro data
    obtain ⟨out, hout, -⟩ := RunLength.decoded_encoded _ c.bounded_begun rfl data
    exact ⟨out, hout⟩
  | ascii85 c =>
    apply (c.encode_makes ctx parms).succeeds
    intro data
    have hrest : ({ c with group := [] } : Ascii85).group = [] := rfl
    obtain ⟨out, hout, -⟩ := Ascii85.decoded_encoded hrest data
    exact ⟨out, hout⟩
  | lzw c => exact ⟨_, c.encode_makes ctx parms⟩
  | asciiHex c => exact ⟨_, c.encode_makes ctx parms⟩
  | flate c =>
    apply (c.encode_makes ctx parms).succeeds
    intro data
    obtain ⟨out, hout, -⟩ := Flate.Deflate.scan_ofBytes_encoded c.level data
    exact ⟨out, hout⟩
  | crypt c =>
    apply (c.encode_makes ctx parms).succeeds
    intro data
    have hown : c.decodeCipher none = .ok c.cipher := rfl
    obtain ⟨out, hout, -⟩ := Crypt.decodes_encodes hctx hctx hc rfl hown data
    exact ⟨out, hout⟩

theorem IsServedBy.meetsAlike {c : Codec} (hc : c.IsDeterministic) {ctx ctx' : CryptoContext}
    (hctx : c.IsServedBy ctx) (hctx' : c.IsServedBy ctx') (direction : Direction) :
    c.MeetsAlike direction ctx ctx' := by
  cases c with
  | crypt c => exact ⟨hctx.trans hctx'.symm, fun _ => .inl hc⟩
  | runLength | lzw | ascii85 | asciiHex | flate => trivial

/-- Blocks of the same data are encoded to the same bytes. It does not matter either what sessions
the codec has run before, or which of the contexts that serve it a session meets. -/
theorem session_encode_of_flatten_eq {c c' : Codec} (hc : c.IsDeterministic) (hkey : c.IsAccepted)
    (hsame : c'.fresh = c.fresh) {ctx ctx' : CryptoContext} (hctx : c.IsServedBy ctx)
    (hctx' : c.IsServedBy ctx') {blocks blocks' : List Bytes}
    (hdata : blocks'.flatten = blocks.flatten) :
    ∃ out, (c.session .encode ctx none blocks).output? = some out ∧
      (c'.session .encode ctx' none blocks').output? = some out := by
  obtain ⟨f, hf⟩ := encode_succeeds hkey hctx none
  have hparallel := session_parallel hsame.symm (hctx.meetsAlike hc hctx' .encode) none blocks'
  refine ⟨f blocks.flatten, hf blocks, ?_⟩
  rw [← hparallel.output?, hf blocks', hdata]

theorem session_encode_of_flatten_eq_aes :
    ∃ out, ((Codec.crypt { cipher := .aes128Cbc, key := List.replicate 16 7
                           iv := some (List.replicate 16 9) }).session .encode {} none
          [[1, 2], [3]]).output? = some out ∧
      ((Codec.crypt { cipher := .aes128Cbc, key := List.replicate 16 7
                      iv := some (List.replicate 16 9)
                      handle := some ⟨.aes128Cbc, .default⟩ }).session .encode {} none
          [[1], [], [2, 3]]).output? = some out := by
  have hlive : ({} : CryptoContext).IsLive :=
    (CryptoContext.isLive_iff {}).2 ⟨rfl, .inr ⟨rfl, rfl⟩⟩
  have hfixed : (Codec.crypt { cipher := .aes128Cbc, key := List.replicate 16 7
                               iv := some (List.replicate 16 9) }).IsDeterministic := .inr rfl
  have hkey : (Codec.crypt { cipher := .aes128Cbc, key := List.replicate 16 7
                             iv := some (List.replicate 16 9) }).IsAccepted := by
    refine ⟨rfl, ?_⟩
    rintro iv ⟨⟩
    rfl
  exact session_encode_of_flatten_eq hfixed hkey rfl hlive hlive rfl

end Codec
end PdfStream
