import PdfStream.Crypto.Context

/-!
What a context offers does not change when it is used: loading again brings the same registry, and
drawing an IV brings none.
-/
namespace PdfStream.CryptoContext

/-- Both providers are loaded, or will be on first use. -/
def IsLive (ctx : CryptoContext) : Prop := ctx.load.2 = .ok ⟨[.legacy, .default], false⟩

/-- The two contexts offer the same. -/
def Matches (ctx ctx' : CryptoContext) : Prop := ctx.load.2 = ctx'.load.2

theorem Matches.refl (ctx : CryptoContext) : ctx.Matches ctx := rfl

theorem Matches.trans {ctx ctx' ctx'' : CryptoContext} (h : ctx.Matches ctx')
    (h' : ctx'.Matches ctx'') : ctx.Matches ctx'' := Eq.trans h h'

theorem Matches.isLive_iff {ctx ctx' : CryptoContext} (h : ctx.Matches ctx') :
    ctx.IsLive ↔ ctx'.IsLive := by rw [IsLive, IsLive, h]

/-- A context is live until its teardown, if the legacy provider is allowed. -/
theorem isLive_iff (ctx : CryptoContext) : ctx.IsLive ↔ ctx.tornDown = false ∧
    (ctx.registry = some ⟨[.legacy, .default], false⟩ ∨
      ctx.registry = none ∧ ctx.options.legacyProvider = true) := by
  have hrefused : Registry.create false =
      .error (.cryptoEngine (.providerDisabled .legacy)) := rfl
  have hcreated : Registry.create true = .ok ⟨[.legacy, .default], false⟩ := rfl
  obtain ⟨⟨legacy⟩, registry, tornDown, inits, entropy⟩ := ctx
  cases tornDown
  · cases registry
    · cases legacy
      · simp [IsLive, load, hrefused]
      · simp [IsLive, load, hcreated]
    · simp [IsLive, load]
  · simp [IsLive, load]

theorem load_matches (ctx : CryptoContext) : ctx.load.1.Matches ctx := by
  unfold Matches load
  split
  next => simp
  next h =>
    split
    next registry hr => simp [h, hr]
    next hr =>
      split
      next e he => simp [h, hr, he]
      next registry hregistry => simp [h]

theorem drawIv_matches (ctx : CryptoContext) : ctx.drawIv.1.Matches ctx := by
  unfold Matches drawIv load
  dsimp only
  split
  next => rfl
  next =>
    split
    next => rfl
    next =>
      split
      next => rfl
      next => rfl

/-- A property that no use of a context takes from it. -/
structure IsKept (P : CryptoContext → Prop) : Prop where
  load : ∀ ctx, P ctx → P ctx.load.1
  drawIv : ∀ ctx, P ctx → P ctx.drawIv.1

theorem isKept_matches (ctx : CryptoContext) : IsKept (·.Matches ctx) where
  load := fun ctx' h => ctx'.load_matches.trans h
  drawIv := fun ctx' h => ctx'.drawIv_matches.trans h

theorem length_drawIv (ctx : CryptoContext) : ctx.drawIv.2.length = 16 := ctx.entropy.length_draw

theorem selectCipher_eq (ctx : CryptoContext) (kind : CipherKind) :
    (ctx.selectCipher kind).2 = ctx.load.2.bind (·.fetchCipher kind kind.home) := rfl

theorem selectCipher_congr {ctx ctx' : CryptoContext} (h : ctx.Matches ctx') (kind : CipherKind) :
    (ctx.selectCipher kind).2 = (ctx'.selectCipher kind).2 := by
  rw [selectCipher_eq, selectCipher_eq, h]

theorem selectCipher_of_live {ctx : CryptoContext} (h : ctx.IsLive) (kind : CipherKind) :
    (ctx.selectCipher kind).2 = .ok ⟨kind, kind.home⟩ := by
  rw [selectCipher_eq, h]
  cases kind <;> rfl

theorem eq_of_selectCipher {ctx : CryptoContext} {kind : CipherKind} {handle : CipherHandle}
    (h : (ctx.selectCipher kind).2 = .ok handle) : handle = ⟨kind, kind.home⟩ := by
  rw [selectCipher_eq] at h
  cases hload : ctx.load.2 with
  | error e =>
    rw [hload] at h
    cases h
  | ok registry =>
    rw [hload] at h
    have hfetch : registry.fetchCipher kind kind.home = .ok handle := h
    unfold Registry.fetchCipher at hfetch
    split at hfetch
    next =>
      cases hfetch
      rfl
    next => cases hfetch

end PdfStream.CryptoContext
