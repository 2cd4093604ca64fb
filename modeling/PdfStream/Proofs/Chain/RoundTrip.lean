import PdfStream.Proofs.Chain.Composition

/-!
Decoding through a chain what the same chain encoded. The stages undo one another in reverse order,
whichever of them draw an IV or choose a compressed form.
-/
namespace PdfStream.Chain
variable {stages : List Stage}

/-- Every stage's parameters make its decoder undo its encoder. -/
def IsReversible (c : Chain) : Prop := ∀ s ∈ c.stages, s.engine.codec.IsReversible s.parms

/-- The context serves every stage. -/
def IsServedBy (ctx : CryptoContext) (c : Chain) : Prop :=
  ∀ s ∈ c.stages, s.engine.codec.IsServedBy ctx

theorem isReversible_empty : ({} : Chain).IsReversible := fun _ hs => absurd hs List.not_mem_nil

theorem IsReversible.push {c : Chain} (h : c.IsReversible) (codec : Codec)
    (parms : Option DecodeParms) (hcodec : codec.IsReversible parms) :
    (c.push codec parms).IsReversible := forall_mem_push h hcodec

theorem isServedBy_empty (ctx : CryptoContext) : ({} : Chain).IsServedBy ctx :=
  fun _ hs => absurd hs List.not_mem_nil

theorem IsServedBy.push {ctx : CryptoContext} {c : Chain} (h : c.IsServedBy ctx) (codec : Codec)
    (parms : Option DecodeParms) (hcodec : codec.IsServedBy ctx) :
    (c.push codec parms).IsServedBy ctx := forall_mem_push h hcodec

/-- What every LZW stage writes is calm. The stages are in the order they encode in. -/
def WritesCalm : List Stage → CryptoContext → Bytes → Prop
  | [], _, _ => True
  | s :: stages, ctx, data => ∀ out ∈ (s.engine.codec.oneShot .encode ctx none data).toOption,
      s.engine.codec.ReadsCalm s.parms out ∧
        WritesCalm stages (s.engine.codec.start .encode ctx none).1 out

theorem writesCalm_of_kind_ne (h : ∀ s ∈ stages, s.engine.codec.kind ≠ .lzw) (ctx : CryptoContext)
    (data : Bytes) : WritesCalm stages ctx data := by
  induction stages generalizing ctx data with
  | nil => trivial
  | cons s stages ih =>
    obtain ⟨hs, hrest⟩ := List.forall_mem_cons.1 h
    exact fun out _ => ⟨Codec.readsCalm_of_kind_ne hs s.parms out, ih hrest _ out⟩

/-- One more stage behind the others. -/
theorem ReadsCalm.concat {s : Stage} {ctx : CryptoContext} {data : Bytes}
    (h : ReadsCalm stages ctx data)
    (hlast : ∀ mid ∈ through .decode stages ctx data, s.engine.codec.ReadsCalm s.parms mid) :
    ReadsCalm (stages ++ [s]) ctx data := by
  induction stages generalizing ctx data with
  | nil => exact ⟨hlast data rfl, fun _ _ => trivial⟩
  | cons t stages ih =>
    refine ⟨h.1, fun out hout => ih (h.2 out hout) fun mid hmid => hlast mid ?_⟩
    rw [through, Stage.parmsFor, Option.mem_def.1 hout]
    exact hmid

/-- By induction on the stages: the last to encode is the first to decode, and reads what it wrote. -/
theorem compose_through {ctx ctx' : CryptoContext}
    (hrev : ∀ s ∈ stages, s.engine.codec.IsReversible s.parms)
    (hctx : ∀ s ∈ stages, s.engine.codec.IsServedBy ctx)
    (hctx' : ∀ s ∈ stages, s.engine.codec.IsServedBy ctx') (data : Bytes) :
    ∃ out, through .encode stages ctx data = some out ∧ (WritesCalm stages ctx data →
      ∀ stages' : List Stage, stages'.map Stage.setup = stages.map Stage.setup →
        compose .decode ctx' stages'.reverse out = .ok data ∧
          ReadsCalm stages'.reverse ctx' out) := by
  induction stages generalizing ctx data with
  | nil =>
    refine ⟨data, rfl, ?_⟩
    intro _ stages' hsetup
    rw [List.map_eq_nil_iff.1 hsetup]
    exact ⟨rfl, trivial⟩
  | cons s stages ih =>
    obtain ⟨hs, hrev⟩ := List.forall_mem_cons.1 hrev
    obtain ⟨hserved, hctx⟩ := List.forall_mem_cons.1 hctx
    obtain ⟨hserved', hctx'⟩ := List.forall_mem_cons.1 hctx'
    have hmatches := s.engine.codec.start_matches .encode ctx none
    obtain ⟨mid, hmid, -⟩ := Codec.oneShot_encode_decode hs rfl hserved hserved' data
    obtain ⟨out, hout, hback⟩ :=
      ih hrev (fun s hs => (hctx s hs).of_matches hmatches) hctx' mid
    refine ⟨out, ?_, ?_⟩
    · rw [through]
      simp only [Stage.parmsFor, hmid]
      exact hout
    · intro hcalm stages' hsetup
      obtain ⟨hown, hlater⟩ := hcalm mid (by rw [hmid]; rfl)
      obtain ⟨s', rest, rfl, hsame, hsetups⟩ := List.map_eq_cons_iff.1 hsetup
      obtain ⟨hfresh, hparms⟩ := Prod.mk.inj hsame
      obtain ⟨hlast, hreads⟩ := hback hlater rest hsetups
      obtain ⟨mid', hmid', hdata⟩ := Codec.oneShot_encode_decode hs hfresh hserved hserved' data
      have hmids : mid' = mid := Except.ok.inj (hmid'.symm.trans hmid)
      subst hmids
      have hthrough : through .decode rest.reverse ctx' out = some mid' := by
        rw [through_eq_compose (fun h => Direction.noConfusion h) (.refl ctx'), hlast]
        rfl
      have hcalm' : s'.engine.codec.ReadsCalm s'.parms mid' := by
        rw [hparms]
        exact hown.of_kind (Codec.kind_of_fresh hfresh)
      rw [List.reverse_cons]
      constructor
      · rw [compose_append, hlast]
        show compose .decode ctx' [s'] mid' = .ok data
        rw [compose_cons]
        simp only [Stage.parmsFor, hparms, hdata hown]
        rfl
      · refine hreads.concat fun mid hmid => ?_
        rw [hthrough] at hmid
        cases hmid
        exact hcalm'

/-- Encoding succeeds, and the same chain then decodes what was encoded, in whatever blocks, back to
the data, if what its LZW stages wrote is calm. -/
theorem runSession_encode_decode {c : Chain} (hc : c.AtRest) (hrev : c.IsReversible)
    {ctx : CryptoContext} (hctx : c.IsServedBy ctx) (blocks : List Bytes) :
    ∃ ctx₁ c₁ sink, c.runSession .encode .buffer ctx blocks = (ctx₁, c₁, .returned sink) ∧
      c₁.phase = .idle ∧ ctx₁.Matches ctx ∧ (WritesCalm c.stages ctx blocks.flatten →
      ∀ ctx', ctx'.Matches ctx → ∀ blocks' : List Bytes, blocks'.flatten = sink.content →
        ∃ ctx₂ c₂ sink', c₁.runSession .decode .buffer ctx' blocks' =
            (ctx₂, c₂, .returned sink') ∧
          c₂.phase = .idle ∧ sink'.content = blocks.flatten) := by
  rcases runSession_spec hc .encode ctx blocks nofun with
    ⟨-, hnone⟩ | ⟨ctx₁, c₁, sink, hrun, hmatches, hrest, hidle, hsetup, hout⟩
  · obtain ⟨out, hthrough, -⟩ := compose_through hrev hctx hctx blocks.flatten
    rw [inOrder, hthrough] at hnone
    cases hnone
  refine ⟨ctx₁, c₁, sink, hrun, hidle, hmatches, ?_⟩
  intro hcalm ctx' hmatches' blocks' hblocks'
  obtain ⟨out, hthrough, hback⟩ := compose_through hrev hctx
    (fun s hs => (hctx s hs).of_matches hmatches') blocks.flatten
  rw [inOrder, hthrough] at hout
  cases hout
  obtain ⟨hdata, hreads⟩ := hback hcalm c₁.stages hsetup
  have hdecoded : through .decode (inOrder .decode c₁.stages) ctx' blocks'.flatten =
      some blocks.flatten := by
    rw [through_eq_compose (fun h => Direction.noConfusion h) (.refl ctx'), hblocks', inOrder, hdata]
    rfl
  have hcalm' : ReadsCalm (inOrder .decode c₁.stages) ctx' blocks'.flatten := by
    rw [hblocks']
    exact hreads
  rcases runSession_spec hrest .decode ctx' blocks' (fun _ => hcalm') with ⟨-, hnone⟩ |
    ⟨ctx₂, c₂, sink', hrun', -, -, hidle', -, hout'⟩
  · rw [hdecoded] at hnone
    cases hnone
  · rw [hdecoded] at hout'
    exact ⟨ctx₂, c₂, sink', hrun', hidle', (Option.some.inj hout').symm⟩

theorem runSession_encode_decode_aes :
    ∃ c, c = ((((({} : Chain).push (.lzw { earlyChange := false })
        (some (.ofList [("EarlyChange", .int 0)]))).push
        (.crypt { cipher := .aes128Cbc, key := List.replicate 16 1 }) none).push
        (.flate { level := 9 }) none).push (.ascii85 {}) none) ∧
      c.AtRest ∧ c.IsReversible ∧ c.IsServedBy {} ∧
      ∃ ctx₁ c₁ sink, c.runSession .encode .buffer {} [[7, 7], [], [7]] =
          (ctx₁, c₁, .returned sink) ∧
        ∀ blocks' : List Bytes, blocks'.flatten = sink.content →
          ∃ ctx₂ c₂ sink', c₁.runSession .decode .buffer ctx₁ blocks' =
            (ctx₂, c₂, .returned sink') ∧ sink'.content = [7, 7, 7] := by
  obtain ⟨crypt, hcrypt⟩ : ∃ c : Crypt, c = { cipher := .aes128Cbc, key := List.replicate 16 1 } :=
    ⟨_, rfl⟩
  obtain ⟨late, hlate⟩ : ∃ parms, parms = some (DecodeParms.ofList [("EarlyChange", .int 0)]) :=
    ⟨_, rfl⟩
  obtain ⟨c, hc⟩ : ∃ c, c = ((((({} : Chain).push (.lzw { earlyChange := false }) late).push
    (.crypt crypt) none).push (.flate { level := 9 }) none).push (.ascii85 {}) none) := ⟨_, rfl⟩
  have hservable : crypt.IsServable := by
    rw [hcrypt]
    constructor
    · decide
    · rintro iv ⟨⟩
  have hcipher : crypt.decodeCipher none = .ok crypt.cipher := rfl
  have hnames : Lzw.Names false late := by
    rw [hlate]
    exact ⟨rfl, 0, rfl, rfl⟩
  have hrest : c.AtRest := by
    rw [hc]
    exact (((atRest_empty.push _ _).push _ _).push _ _).push _ _
  have hrev : c.IsReversible := by
    rw [hc]
    exact (((isReversible_empty.push (.lzw { earlyChange := false }) late hnames).push (.crypt _)
      none ⟨hservable, hcipher⟩).push (.flate _) none trivial).push (.ascii85 _) none trivial
  have hserved : c.IsServedBy {} := by
    rw [hc]
    exact ((((isServedBy_empty {}).push (.lzw _) late trivial).push (.crypt _) none rfl).push
      (.flate _) none trivial).push (.ascii85 _) none trivial
  have hcalm : WritesCalm c.stages {} [[7, 7], [], [7]].flatten := by
    rw [hc]
    intro out hout
    refine ⟨?_, writesCalm_of_kind_ne ?_ _ out⟩
    · exact Codec.readsCalm_of_oneShot (c := .lzw { earlyChange := false }) hnames
        hout (by decide)
    · simp [Codec.kind]
  refine ⟨c, by rw [hc, hcrypt, hlate], hrest, hrev, hserved, ?_⟩
  obtain ⟨ctx₁, c₁, sink, hrun, -, hmatches, hback⟩ :=
    runSession_encode_decode hrest hrev hserved [[7, 7], [], [7]]
  refine ⟨ctx₁, c₁, sink, hrun, ?_⟩
  intro blocks' hblocks'
  obtain ⟨ctx₂, c₂, sink', hrun', -, hdata⟩ := hback hcalm ctx₁ hmatches blocks' hblocks'
  exact ⟨ctx₂, c₂, sink', hrun', hdata⟩

end PdfStream.Chain
