import Mathlib.Data.List.Basic
import PdfStream.Crypto.Context

/-!
The life of a crypto context, from its making over any number of calls. It loads its providers on
the first use, or fails to and may be asked again, until the teardown ends all use of it.
-/
namespace PdfStream

/-- The calls on a context. All but the teardown use the providers. -/
inductive ContextCall where
  | init
  | selectCipher (kind : CipherKind)
  | selectDigest (kind : DigestKind)
  | computeDigest (algorithm : HashAlgorithm) (data : Bytes)
  | computeMd5 (data : Bytes)
  | computeSha1 (data : Bytes)
  | teardown
  deriving DecidableEq, Repr

/-- What a call brings. -/
inductive ContextAnswer where
  | done
  | cipher (handle : CipherHandle)
  | digest (handle : DigestHandle)
  | bytes (out : Bytes)
  deriving DecidableEq, Repr

namespace CryptoContext

def answering {α : Type} (wrap : α → ContextAnswer) (called : CryptoContext × Except Error α) :
    CryptoContext × Except Error ContextAnswer :=
  (called.1, called.2.map wrap)

/-- A provider is loaded and not unloaded again. -/
def HasLoaded (ctx : CryptoContext) (provider : Provider) : Prop :=
  ∃ registry, ctx.registry = some registry ∧ registry.isLoaded provider = true

end CryptoContext

namespace ContextCall
open CryptoContext

def perform (ctx : CryptoContext) : ContextCall → CryptoContext × Except Error ContextAnswer
  | .init => answering (fun _ => .done) ctx.init
  | .selectCipher kind => answering .cipher (ctx.selectCipher kind)
  | .selectDigest kind => answering .digest (ctx.selectDigest kind)
  | .computeDigest algorithm data => answering .bytes (ctx.computeDigest algorithm data)
  | .computeMd5 data => answering .bytes (ctx.computeMd5 data)
  | .computeSha1 data => answering .bytes (ctx.computeSha1 data)
  | .teardown => answering (fun _ => .done) ctx.teardown

/-- The call uses the providers. A digest of an unknown algorithm is refused before that. -/
def IsAccess : ContextCall → Prop
  | .teardown => False
  | .computeDigest algorithm _ => algorithm ≠ .unknown
  | _ => True

/-- The answer is what the call asks for. A handle has the kind that was selected, and a provider
that is loaded supplies it. -/
def Suits (ctx : CryptoContext) : ContextCall → ContextAnswer → Prop
  | .init, .done => True
  | .selectCipher kind, .cipher handle =>
    handle.kind = kind ∧ ctx.HasLoaded handle.provider ∧ handle.provider.Provides kind
  | .selectDigest kind, .digest handle =>
    handle.kind = kind ∧ ctx.HasLoaded handle.provider ∧ kind ∈ handle.provider.digests
  | .computeDigest algorithm data, .bytes out =>
    ∃ kind, algorithm.kind? = some kind ∧ out = kind.digest data
  | .computeMd5 data, .bytes out => out = DigestKind.md5.digest data
  | .computeSha1 data, .bytes out => out = DigestKind.sha1.digest data
  | _, _ => False

/-- What a call makes of the providers. -/
def use : ContextCall → Registry → Except Error ContextAnswer
  | .selectCipher kind, registry => (registry.fetchCipher kind kind.home).map .cipher
  | .selectDigest kind, registry => (registry.fetchDigest kind .default).map .digest
  | .computeDigest algorithm data, registry =>
    algorithm.digestKind.bind fun kind =>
      (registry.fetchDigest kind .default).map fun handle => .bytes (handle.digest data)
  | .computeMd5 data, registry =>
    (registry.fetchDigest .md5 .default).map fun handle => .bytes (handle.digest data)
  | .computeSha1 data, registry =>
    (registry.fetchDigest .sha1 .default).map fun handle => .bytes (handle.digest data)
  | .init, _ | .teardown, _ => .ok .done

/-- An access loads the providers and then uses them. -/
theorem perform_of_isAccess {call : ContextCall} (h : call.IsAccess) (ctx : CryptoContext) :
    call.perform ctx = (ctx.load.1, ctx.load.2.bind call.use) := by
  have hcompute (kind : DigestKind) (data : Bytes) :
      answering .bytes (ctx.computeKind kind data) = (ctx.load.1, ctx.load.2.bind fun registry =>
        (registry.fetchDigest kind .default).map fun handle => .bytes (handle.digest data)) := by
    simp only [answering, computeKind, CryptoContext.selectDigest]
    cases ctx.load.2 with
    | error e => rfl
    | ok registry =>
      simp only [Except.bind]
      cases registry.fetchDigest kind .default <;> rfl
  cases call with
  | init | selectCipher | selectDigest =>
    simp only [perform, answering, CryptoContext.init, CryptoContext.selectCipher,
      CryptoContext.selectDigest]
    cases ctx.load.2 <;> rfl
  | computeDigest algorithm data =>
    cases algorithm with
    | unknown => exact absurd rfl h
    | sha256 | sha384 | sha512 => exact hcompute _ data
  | computeMd5 data => exact hcompute .md5 data
  | computeSha1 data => exact hcompute .sha1 data
  | teardown => exact h.elim

end ContextCall

namespace CryptoContext

def run (ctx : CryptoContext) (calls : List ContextCall) : CryptoContext :=
  calls.foldl (fun ctx call => (call.perform ctx).1) ctx

/-- A new context after these calls. -/
def after (options : CryptoOptions) (entropy : Entropy) (calls : List ContextCall) :
    CryptoContext :=
  run { options, entropy } calls

/-- The providers have been loaded once or not at all, only if the legacy provider is allowed, and
the teardown has unloaded them. -/
structure IsAt (legacy torn : Bool) (ctx : CryptoContext) : Prop where
  options : ctx.options.legacyProvider = legacy
  tornDown : ctx.tornDown = torn
  registry : ctx.registry = none ∧ ctx.inits = 0 ∨
    legacy = true ∧ ctx.registry = some ⟨[.legacy, .default], torn⟩ ∧ ctx.inits = 1

section
variable {ctx : CryptoContext} {legacy torn : Bool}

theorem isAt_new (options : CryptoOptions) (entropy : Entropy) :
    IsAt options.legacyProvider false { options, entropy } := ⟨rfl, rfl, .inl ⟨rfl, rfl⟩⟩

theorem IsAt.inits_le (h : ctx.IsAt legacy torn) : ctx.inits ≤ 1 := by
  rcases h.registry with ⟨-, hinits⟩ | ⟨-, -, hinits⟩ <;> omega

theorem IsAt.isInitialized_iff (h : ctx.IsAt legacy torn) :
    ctx.isInitialized = true ↔ ctx.inits = 1 ∧ torn = false := by
  unfold isInitialized
  rw [h.tornDown]
  rcases h.registry with ⟨hnone, hinits⟩ | ⟨-, hsome, hinits⟩
  · simp [hnone, hinits]
  · simp [hsome, hinits]

/-- Nothing is loaded without the legacy provider, and nothing stays loaded. -/
theorem IsAt.not_hasLoaded (h : ctx.IsAt legacy torn) (hgone : legacy = false ∨ torn = true)
    (provider : Provider) : ¬ctx.HasLoaded provider := by
  rintro ⟨registry, hsome, hloaded⟩
  rcases h.registry with ⟨hnone, -⟩ | ⟨hlegacy, hregistry, -⟩
  · rw [hnone] at hsome
    cases hsome
  · rw [hregistry] at hsome
    cases hsome
    rcases hgone with hlegacy' | rfl
    · rw [hlegacy] at hlegacy'
      cases hlegacy'
    · cases hloaded

theorem IsAt.load_of_torn (h : ctx.IsAt legacy true) :
    ctx.load = (ctx, .error (.usage .contextTornDown)) := by
  rw [load, h.tornDown]
  rfl

theorem IsAt.load_of_refused (h : ctx.IsAt false false) :
    ctx.load = (ctx, .error (.cryptoEngine (.providerDisabled .legacy))) := by
  obtain ⟨hnone, -⟩ | ⟨hlegacy, -⟩ := h.registry
  · simp only [load, h.tornDown, hnone, h.options]
    rfl
  · cases hlegacy

theorem IsAt.load_of_allowed (h : ctx.IsAt true false) :
    ∃ ctx', ctx.load = (ctx', .ok ⟨[.legacy, .default], false⟩) ∧ ctx'.IsAt true false ∧
      ctx'.registry = some ⟨[.legacy, .default], false⟩ := by
  rcases h.registry with ⟨hnone, hinits⟩ | ⟨-, hsome, hinits⟩
  · refine ⟨{ ctx with registry := some ⟨[.legacy, .default], false⟩, inits := 1 }, ?_,
      ⟨h.options, h.tornDown, .inr ⟨rfl, rfl, rfl⟩⟩, rfl⟩
    simp only [load, h.tornDown, hnone, h.options, hinits]
    rfl
  · refine ⟨ctx, ?_, h, hsome⟩
    simp only [load, h.tornDown, hsome]
    rfl

theorem IsAt.teardown_of_live (h : ctx.IsAt legacy false) :
    ∃ ctx', ctx.teardown = (ctx', .ok ()) ∧ ctx'.IsAt legacy true ∧ ctx'.inits = ctx.inits := by
  refine ⟨{ ctx with tornDown := true, registry := ctx.registry.map Registry.unload }, ?_,
    ⟨h.options, rfl, ?_⟩, rfl⟩
  · rw [teardown, h.tornDown]
    rfl
  · rcases h.registry with ⟨hnone, hinits⟩ | ⟨hlegacy, hsome, hinits⟩
    · exact .inl ⟨congrArg (Option.map Registry.unload) hnone, hinits⟩
    · exact .inr ⟨hlegacy, congrArg (Option.map Registry.unload) hsome, hinits⟩

theorem IsAt.teardown_of_torn (h : ctx.IsAt legacy true) :
    ctx.teardown = (ctx, .error (.usage .contextAlreadyTornDown)) := by
  rw [teardown, h.tornDown]
  rfl

/-- Every access finds what it asks for once the providers are loaded. -/
theorem exists_use (h : ctx.registry = some ⟨[.legacy, .default], false⟩) {call : ContextCall}
    (hcall : call.IsAccess) :
    ∃ answer, call.use ⟨[.legacy, .default], false⟩ = .ok answer ∧ call.Suits ctx answer := by
  have hloaded (provider : Provider) : ctx.HasLoaded provider :=
    ⟨_, h, by cases provider <;> rfl⟩
  cases call with
  | init => exact ⟨.done, rfl, trivial⟩
  | selectCipher kind =>
    exact ⟨.cipher ⟨kind, kind.home⟩, by cases kind <;> rfl, rfl, hloaded _,
      Provider.provides_iff.2 rfl⟩
  | selectDigest kind =>
    exact ⟨.digest ⟨kind, .default⟩, by cases kind <;> rfl, rfl, hloaded _,
      by cases kind <;> decide⟩
  | computeDigest algorithm data =>
    cases algorithm with
    | unknown => exact absurd rfl hcall
    | sha256 | sha384 | sha512 => exact ⟨.bytes _, rfl, _, rfl, rfl⟩
  | computeMd5 data => exact ⟨.bytes _, rfl, rfl⟩
  | computeSha1 data => exact ⟨.bytes _, rfl, rfl⟩
  | teardown => exact hcall.elim

theorem IsAt.access_of_allowed (h : ctx.IsAt true false) {call : ContextCall}
    (hcall : call.IsAccess) :
    ∃ ctx' answer, call.perform ctx = (ctx', .ok answer) ∧ ctx'.IsAt true false ∧
      ctx'.inits = 1 ∧ call.Suits ctx' answer := by
  obtain ⟨ctx', hload, hat, hregistry⟩ := h.load_of_allowed
  obtain ⟨answer, huse, hsuits⟩ := exists_use hregistry hcall
  refine ⟨ctx', answer, ?_, hat, ?_, hsuits⟩
  · rw [ContextCall.perform_of_isAccess hcall, hload]
    exact congrArg (ctx', ·) huse
  · rcases hat.registry with ⟨hnone, -⟩ | ⟨-, -, hinits⟩
    · rw [hregistry] at hnone
      cases hnone
    · exact hinits

theorem IsAt.access_of_refused (h : ctx.IsAt false false) {call : ContextCall}
    (hcall : call.IsAccess) :
    call.perform ctx = (ctx, .error (.cryptoEngine (.providerDisabled .legacy))) := by
  rw [ContextCall.perform_of_isAccess hcall, h.load_of_refused]
  rfl

theorem IsAt.access_of_torn (h : ctx.IsAt legacy true) {call : ContextCall}
    (hcall : call.IsAccess) : call.perform ctx = (ctx, .error (.usage .contextTornDown)) := by
  rw [ContextCall.perform_of_isAccess hcall, h.load_of_torn]
  rfl

/-- An access leaves the context where it is, except that it may load the providers. -/
theorem IsAt.access (h : ctx.IsAt legacy torn) {call : ContextCall} (hcall : call.IsAccess) :
    (call.perform ctx).1.IsAt legacy torn ∧ ctx.inits ≤ (call.perform ctx).1.inits := by
  cases torn with
  | true =>
    rw [h.access_of_torn hcall]
    exact ⟨h, Nat.le_refl _⟩
  | false =>
    cases legacy with
    | false =>
      rw [h.access_of_refused hcall]
      exact ⟨h, Nat.le_refl _⟩
    | true =>
      obtain ⟨ctx', answer, hperform, hat, hinits, -⟩ := h.access_of_allowed hcall
      rw [hperform, hinits]
      exact ⟨hat, h.inits_le⟩

theorem IsAt.perform (h : ctx.IsAt legacy torn) (call : ContextCall) :
    (call.perform ctx).1.IsAt legacy (torn || decide (call = .teardown)) ∧
      ctx.inits ≤ (call.perform ctx).1.inits := by
  by_cases hcall : call = .teardown
  · rw [hcall, decide_eq_true rfl, Bool.or_true]
    cases torn with
    | true =>
      simp only [ContextCall.perform, answering, h.teardown_of_torn]
      exact ⟨h, Nat.le_refl _⟩
    | false =>
      obtain ⟨ctx', hteardown, hat, hinits⟩ := h.teardown_of_live
      simp only [ContextCall.perform, answering, hteardown]
      exact ⟨hat, Nat.le_of_eq hinits.symm⟩
  · rw [decide_eq_false hcall, Bool.or_false]
    by_cases haccess : call.IsAccess
    · exact h.access haccess
    · cases call with
      | computeDigest algorithm data =>
        have hunknown : algorithm = .unknown := not_not.1 haccess
        rw [hunknown]
        exact ⟨h, Nat.le_refl _⟩
      | init | selectCipher | selectDigest | computeMd5 | computeSha1 =>
        exact absurd trivial haccess
      | teardown => exact absurd rfl hcall

theorem IsAt.run (h : ctx.IsAt legacy torn) (calls : List ContextCall) :
    (ctx.run calls).IsAt legacy (torn || decide (.teardown ∈ calls)) ∧
      ctx.inits ≤ (ctx.run calls).inits := by
  induction calls generalizing ctx torn with
  | nil =>
    rw [decide_eq_false List.not_mem_nil, Bool.or_false]
    exact ⟨h, Nat.le_refl _⟩
  | cons call calls ih =>
    obtain ⟨hat, hinits⟩ := h.perform call
    obtain ⟨hat', hinits'⟩ := ih hat
    refine ⟨?_, Nat.le_trans hinits hinits'⟩
    have hmem : (torn || decide (ContextCall.teardown ∈ call :: calls)) =
        ((torn || decide (call = .teardown)) || decide (ContextCall.teardown ∈ calls)) := by
      rw [Bool.or_assoc, ← Bool.decide_or]
      simp only [List.mem_cons, eq_comm]
    rw [hmem]
    exact hat'

end

section
variable (options : CryptoOptions) (entropy : Entropy) (calls : List ContextCall)

theorem after_append (later : List ContextCall) :
    after options entropy (calls ++ later) = (after options entropy calls).run later :=
  List.foldl_append

theorem isAt_after :
    (after options entropy calls).IsAt options.legacyProvider (decide (.teardown ∈ calls)) := by
  have hrun := ((isAt_new options entropy).run calls).1
  rw [Bool.false_or] at hrun
  exact hrun

/-- A teardown among these calls to a new context succeeds. -/
def TeardownSucceeds : Prop :=
  ∃ earlier later, calls = earlier ++ .teardown :: later ∧
    (ContextCall.teardown.perform (after options entropy earlier)).2 = .ok .done

variable {calls}

theorem teardown_of_not_mem (h : .teardown ∉ calls) :
    (ContextCall.teardown.perform (after options entropy calls)).2 = .ok .done := by
  have hat := isAt_after options entropy calls
  rw [decide_eq_false h] at hat
  obtain ⟨ctx', hteardown, -⟩ := hat.teardown_of_live
  simp only [ContextCall.perform, answering, hteardown]
  rfl

/-- The first teardown does succeed. -/
theorem teardownSucceeds_iff : TeardownSucceeds options entropy calls ↔ .teardown ∈ calls := by
  constructor
  · rintro ⟨earlier, later, rfl, -⟩
    exact List.mem_append_right _ List.mem_cons_self
  · intro hmem
    obtain ⟨earlier, later, rfl, hfirst⟩ := List.eq_append_cons_of_mem hmem
    exact ⟨earlier, later, rfl, teardown_of_not_mem options entropy hfirst⟩

/-- A context without the legacy provider never loads anything, and with it loads the providers
once. The first teardown ends all use of the context and unloads the providers for good. -/
theorem context_lifecycle (options : CryptoOptions) (entropy : Entropy)
    (calls : List ContextCall) :
    ((after options entropy calls).inits = 0 ∨ (after options entropy calls).inits = 1) ∧
    (∀ later, (after options entropy calls).inits ≤
      (after options entropy (calls ++ later)).inits) ∧
    ((after options entropy calls).isInitialized = true ↔
      (after options entropy calls).inits = 1 ∧ ¬TeardownSucceeds options entropy calls) ∧
    (options.legacyProvider = true → .teardown ∉ calls → ∀ call : ContextCall, call.IsAccess →
      ∃ ctx answer, call.perform (after options entropy calls) = (ctx, .ok answer) ∧
        call.Suits ctx answer) ∧
    (options.legacyProvider = false → .teardown ∉ calls → ∀ call : ContextCall, call.IsAccess →
      ∃ ctx reason,
        call.perform (after options entropy calls) = (ctx, .error (.cryptoEngine reason)) ∧
        ctx.isInitialized = false ∧ ∀ provider, ¬ctx.HasLoaded provider) ∧
    (.teardown ∉ calls →
      (ContextCall.teardown.perform (after options entropy calls)).2 = .ok .done) ∧
    (.teardown ∈ calls →
      (∀ call : ContextCall, call.IsAccess ∨ call = .teardown → ∃ misuse,
        (call.perform (after options entropy calls)).2 = .error (.usage misuse)) ∧
      ∀ later provider, ¬(after options entropy (calls ++ later)).HasLoaded provider) := by
  have hat := isAt_after options entropy calls
  refine ⟨?once, fun later => ?grows, ?initialized, fun hlegacy hlive call hcall => ?allowed,
    fun hlegacy hlive call hcall => ?refused, teardown_of_not_mem options entropy,
    fun htorn => ⟨fun call hcall => ?ended, fun later provider => ?unloaded⟩⟩
  case once =>
    have := hat.inits_le
    omega
  case grows =>
    rw [after_append]
    exact (hat.run later).2
  case initialized =>
    rw [hat.isInitialized_iff, teardownSucceeds_iff, decide_eq_false_iff_not]
  case allowed =>
    rw [hlegacy, decide_eq_false hlive] at hat
    obtain ⟨ctx, answer, hperform, -, -, hsuits⟩ := hat.access_of_allowed hcall
    exact ⟨ctx, answer, hperform, hsuits⟩
  case refused =>
    rw [hlegacy, decide_eq_false hlive] at hat
    have hnone := hat.not_hasLoaded (.inl rfl)
    refine ⟨_, _, hat.access_of_refused hcall, ?_, hnone⟩
    rcases hat.registry with ⟨hregistry, -⟩ | ⟨hallowed, -⟩
    · simp only [isInitialized, hregistry, Option.isSome_none, Bool.false_and]
    · cases hallowed
  case ended =>
    rw [decide_eq_true htorn] at hat
    rcases hcall with hcall | rfl
    · exact ⟨_, congrArg Prod.snd (hat.access_of_torn hcall)⟩
    · simp only [ContextCall.perform, answering, hat.teardown_of_torn]
      exact ⟨_, rfl⟩
  case unloaded =>
    have hlater := isAt_after options entropy (calls ++ later)
    exact hlater.not_hasLoaded (.inr (decide_eq_true (List.mem_append_left _ htorn))) provider

end

end CryptoContext

end PdfStream
