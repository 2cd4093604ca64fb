import PdfStream.Proofs.Codec.Ready

/-!
Streams that tell where they end. LZW and Flate data have a first place where decoding may stop: what
follows is ignored, and whatever is cut short before it is refused. What was encoded ends there.
-/
namespace PdfStream
namespace Codec

/-- Once it has begun, a decoding session fails only for its data. -/
theorem isDecode_of_fault_session {c : Codec} {ctx : CryptoContext} {parms : Option DecodeParms}
    (hstart : (c.start .decode ctx parms).2.fault = none) {blocks : List Bytes} {e : Error}
    (h : (c.session .decode ctx parms blocks).fault = some e) : e.IsDecode := by
  rw [session, Step.fault_andThen hstart] at h
  refine (coder .decode).fault_session (P := Error.IsDecode) (IsReady .decode) ?_ ?_
    (c.isReady_start .decode ctx parms hstart) blocks h
  · intro s data hs
    exact ⟨fun e he => (faultsOnly_block_of_isReady hs data e he).2,
      fun _ => isReady_block hs data⟩
  · intro s hs e he
    exact (faultsOnly_finish_of_isReady hs e he).2

/-- A decoding session that has begun either has an output or fails for its data. -/
theorem exists_fault_session_iff {c : Codec} {ctx : CryptoContext} {parms : Option DecodeParms}
    (hstart : (c.start .decode ctx parms).2.fault = none) {blocks : List Bytes} :
    (∃ fault, (c.session .decode ctx parms blocks).fault = some (.decode fault)) ↔
      ¬∃ data, (c.session .decode ctx parms blocks).output? = some data := by
  cases hfault : (c.session .decode ctx parms blocks).fault with
  | none => simp [Step.output?_of_no_fault hfault]
  | some e =>
    obtain ⟨fault, rfl⟩ := isDecode_of_fault_session hstart hfault
    simp [Step.output?_of_fault hfault]

/-- With these parameters decoding goes by `f`, which finds the end of its data by itself; and what
was encoded to be read with them has no end before its last byte. What follows the end does not make
calm data others. -/
structure FindsEnd (kind : FilterKind) (parms : Option DecodeParms)
    (f : Bytes → Option Bytes) : Prop where
  settled : IsSettled f
  starts : ∀ (c : Codec) (ctx : CryptoContext), c.kind = kind →
    (c.start .decode ctx parms).2.fault = none
  makes : ∀ (c : Codec) (ctx : CryptoContext) (data : Bytes), c.kind = kind →
    c.ReadsCalm parms data → c.MakesOf .decode ctx parms data (f data)
  calm : ∀ (c : Codec) (data out more : Bytes), c.kind = kind → f data = some out →
    c.ReadsCalm parms data → c.ReadsCalm parms (data ++ more)
  encoded : ∀ (c : Codec) (ctx : CryptoContext) (blocks : List Bytes) (out : Bytes),
    c.kind = kind → c.IsReversible parms →
      (c.session .encode ctx none blocks).output? = some out → Delimits f out blocks.flatten

theorem findsEnd_lzw {parms : Option DecodeParms} {early : Bool} {predictor : Option Predictor}
    (h : Lzw.settings parms = .ok (early, predictor)) : FindsEnd .lzw parms fun data =>
      ((Lzw.Decoder.create early).scan (Bits.ofBytes .highFirst data)).bind
        (Predictor.postPass predictor) where
  settled := ((Lzw.Decoder.isSettled_scan _).ofBytes .highFirst).bind _
  starts := by
    intro c ctx hkind
    cases c with
    | lzw c => simp [start, beginDecode, Lzw.beginDecode, h]
    | runLength | ascii85 | asciiHex | flate | crypt => cases hkind
  makes := by
    intro c ctx data hkind hcalm
    cases c with
    | lzw c => exact c.decode_makesOf_of_settings h ctx hcalm
    | runLength | ascii85 | asciiHex | flate | crypt => cases hkind
  calm := by
    intro c data out more hkind hout hcalm
    cases c with
    | lzw c =>
      refine Lzw.IsCalmData.append hcalm h ?_ more
      rintro hnone
      rw [hnone] at hout
      cases hout
    | runLength | ascii85 | asciiHex | flate | crypt => cases hkind
  encoded := by
    intro c ctx blocks out hkind hc hout
    cases c with
    | lzw c =>
      have hnames := Lzw.settings_of_names hc
      rw [h] at hnames
      cases hnames
      rw [c.encode_makes ctx none blocks] at hout
      cases hout
      simp only [Predictor.bind_postPass_none]
      exact Lzw.delimits_ofBytes_encoded c.earlyChange blocks.flatten
    | runLength | ascii85 | asciiHex | flate | crypt => cases hkind

theorem findsEnd_flate {parms : Option DecodeParms} {predictor : Option Predictor}
    (h : Predictor.ofParms parms = .ok predictor) : FindsEnd .flate parms fun data =>
      (({} : Flate.Inflate).scan (Bits.ofBytes .lowFirst data)).bind
        (Predictor.postPass predictor) where
  settled := ((Flate.Inflate.isSettled_scan _).ofBytes .lowFirst).bind _
  starts := by
    intro c ctx hkind
    cases c with
    | flate c => simp [start, beginDecode, Flate.beginDecode, h]
    | runLength | ascii85 | asciiHex | lzw | crypt => cases hkind
  makes := by
    intro c ctx data hkind hcalm
    cases c with
    | flate c => exact (c.decode_makes_of_parms h ctx).of data
    | runLength | ascii85 | asciiHex | lzw | crypt => cases hkind
  calm := by
    intro c data out more hkind hout hcalm
    cases c with
    | flate c => trivial
    | runLength | ascii85 | asciiHex | lzw | crypt => cases hkind
  encoded := by
    intro c ctx blocks out hkind hc hout
    cases c with
    | flate c =>
      have habsent := Predictor.ofParms_of_absent hc
      rw [h] at habsent
      cases habsent
      obtain ⟨out', hout', hdelimits⟩ :=
        Flate.Deflate.delimits_ofBytes_encoded c.level blocks.flatten
      rw [c.encode_makes ctx none blocks, hout'] at hout
      cases hout
      simp only [Predictor.bind_postPass_none]
      exact hdelimits
    | runLength | ascii85 | asciiHex | lzw | crypt => cases hkind

theorem exists_findsEnd {c : Codec} (hc : c.kind = .lzw ∨ c.kind = .flate) {ctx : CryptoContext}
    {parms : Option DecodeParms} (h : (c.start .decode ctx parms).2.fault = none) :
    ∃ f, FindsEnd c.kind parms f := by
  cases c with
  | lzw c =>
    cases hsettings : Lzw.settings parms with
    | error e => simp [start, beginDecode, Lzw.beginDecode, hsettings] at h
    | ok settings => exact ⟨_, findsEnd_lzw hsettings⟩
  | flate c =>
    cases hparms : Predictor.ofParms parms with
    | error e => simp [start, beginDecode, Flate.beginDecode, hparms] at h
    | ok predictor => exact ⟨_, findsEnd_flate hparms⟩
  | runLength | ascii85 | asciiHex | crypt => rcases hc with hc | hc <;> cases hc

/-- Decoders of this kind are done with `front`: what follows does not show in their output, and with
less of it they report a decode error. -/
structure EndsWith (kind : FilterKind) (parms : Option DecodeParms) (front out : Bytes) : Prop where
  ignores : ∀ (c : Codec) (ctx : CryptoContext) (blocks : List Bytes), c.kind = kind →
    front <+: blocks.flatten → (c.session .decode ctx parms blocks).output? = some out
  refuses : ∀ (c : Codec) (ctx : CryptoContext) (blocks : List Bytes), c.kind = kind →
    blocks.flatten <+: front → blocks.flatten ≠ front →
      ∃ e, (c.session .decode ctx parms blocks).fault = some e ∧ e.IsDecode

theorem FindsEnd.endsWith {c : Codec} {parms : Option DecodeParms} {f : Bytes → Option Bytes}
    (h : FindsEnd c.kind parms f) {front out : Bytes} (hfront : Delimits f front out)
    (hcalm : c.ReadsCalm parms front) : EndsWith c.kind parms front out := by
  constructor
  · rintro d ctx blocks hkind ⟨more, hmore⟩
    have hcalm' := h.calm d front out more hkind hfront.eq_some (hcalm.of_kind hkind)
    rw [hmore] at hcalm'
    rw [h.makes d ctx _ hkind hcalm' blocks rfl, ← hmore, hfront.settled more]
  · rintro d ctx blocks hkind hshort hne
    have hcalm' : d.ReadsCalm parms blocks.flatten := by
      obtain ⟨more, hmore⟩ := hshort
      have hwhole := hcalm.of_kind hkind
      rw [← hmore] at hwhole
      exact hwhole.of_append
    have hnone : (d.session .decode ctx parms blocks).output? = none :=
      (h.makes d ctx _ hkind hcalm' blocks rfl).trans (hfront.least _ hshort hne)
    cases hfault : (d.session .decode ctx parms blocks).fault with
    | none =>
      rw [Step.output?_of_no_fault hfault] at hnone
      cases hnone
    | some e => exact ⟨e, rfl, isDecode_of_fault_session (h.starts d ctx hkind) hfault⟩

/-- Flate data and calm LZW data that decode at all have a front where decoding ends. What was encoded
to be decoded with these parameters is itself that front. -/
theorem session_decode_endsWith {c : Codec} (hc : c.kind = .lzw ∨ c.kind = .flate)
    {ctx : CryptoContext} {parms : Option DecodeParms} {blocks : List Bytes} {out : Bytes}
    (hcalm : c.ReadsCalm parms blocks.flatten)
    (h : (c.session .decode ctx parms blocks).output? = some out) :
    ∃ front, front <+: blocks.flatten ∧ EndsWith c.kind parms front out ∧
      ∀ (d : Codec) (ctx' : CryptoContext) (blocks' : List Bytes), d.kind = c.kind →
        d.IsReversible parms →
        (d.session .encode ctx' none blocks').output? = some blocks.flatten →
          front = blocks.flatten := by
  have hstart : (c.start .decode ctx parms).2.fault = none := by
    cases hfault : (c.start .decode ctx parms).2.fault with
    | none => rfl
    | some e =>
      rw [session, Step.output?_andThen, Step.output?_of_fault hfault] at h
      cases h
  obtain ⟨f, hf⟩ := exists_findsEnd hc hstart
  have hout : f blocks.flatten = some out :=
    (hf.makes c ctx _ rfl hcalm blocks rfl).symm.trans h
  obtain ⟨front, hfront, hdelimits⟩ := hf.settled.exists_delimits hout
  have hfrontCalm : c.ReadsCalm parms front := by
    obtain ⟨more, hmore⟩ := hfront
    rw [← hmore] at hcalm
    exact hcalm.of_append
  refine ⟨front, hfront, hf.endsWith hdelimits hfrontCalm, ?_⟩
  intro d ctx' blocks' hkind hd hencoded
  have hwhole := hf.encoded d ctx' blocks' _ hkind hd hencoded
  exact hdelimits.eq_of_prefix hwhole hfront (List.prefix_refl _)

theorem session_decode_endsWith_trailing :
    (Codec.lzw {}).ReadsCalm none [0x80, 0x10, 0x48, 0x50, 0x10, 7] ∧
      ((Codec.lzw {}).session .decode {} none
        [[0x80, 0x10], [], [0x48, 0x50, 0x10, 7]]).output? = some [0x41, 0x42] ∧
      ∃ front, front <+: [0x80, 0x10, 0x48, 0x50, 0x10, 7] ∧
        EndsWith .lzw none front [0x41, 0x42] ∧
        ∀ (d : Codec) (ctx' : CryptoContext) (blocks' : List Bytes), d.kind = .lzw →
          d.IsReversible none →
          (d.session .encode ctx' none blocks').output? =
              some [0x80, 0x10, 0x48, 0x50, 0x10, 7] →
            front = [0x80, 0x10, 0x48, 0x50, 0x10, 7] := by
  have hcalm : Lzw.IsCalmData none [[0x80, 0x10], [], [0x48, 0x50, 0x10, 7]].flatten := by
    decide +kernel
  have hdecoded : ((Codec.lzw {}).session .decode {} none
      [[0x80, 0x10], [], [0x48, 0x50, 0x10, 7]]).output? = some [0x41, 0x42] := by decide +kernel
  exact ⟨hcalm, hdecoded, session_decode_endsWith (c := .lzw {}) (.inl rfl) hcalm hdecoded⟩

/-- With a clear code between its letters a word decodes in two blocks, but no front of the data decodes
in whatever blocks. -/
theorem session_decode_not_endsWith :
    ((Codec.lzw {}).session .decode {} none
        [[0x80, 0x10, 0x60], [0x04, 0x28, 0x08]]).output? = some [0x41, 0x42] ∧
      ∀ front, front <+: [0x80, 0x10, 0x60, 0x04, 0x28, 0x08] →
        ¬EndsWith .lzw none front [0x41, 0x42] := by
  refine ⟨by decide +kernel, fun front hfront hends => ?_⟩
  have hwhole := hends.ignores (.lzw {}) {} [[0x80, 0x10, 0x60, 0x04, 0x28, 0x08]] rfl hfront
  have hcut : ((Codec.lzw {}).session .decode {} none
      [[0x80, 0x10, 0x60, 0x04, 0x28, 0x08]]).output? = none := by decide +kernel
  rw [hcut] at hwhole
  cases hwhole

end Codec
end PdfStream
