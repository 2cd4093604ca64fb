import PdfStream.Proofs.Engine.Client

/-!
Decode parameters that name a cipher. Their session is that of a codec made for this cipher, call by
call, and it leaves the codec as if it had never been: the cipher of a session is bound when it
begins, and what the codec was made with stays.
-/
namespace PdfStream

/-- The crypt filter methods. -/
def cipherMethods : List (String × CipherKind) :=
  [("V2", .rc4), ("AESV2", .aes128Cbc), ("AESV3", .aes256Cbc)]

/-- The parameters name the cipher, and give the length of the key in bits or not at all. -/
structure DecodeParms.NamesCipher (parms : DecodeParms) (key : Bytes) (cipher : CipherKind) :
    Prop where
  method : ∃ method, parms.get? "CFM" = some (.name method) ∧ (method, cipher) ∈ cipherMethods
  length : parms.get? "Length" = none ∨
    5 ≤ key.length ∧ parms.get? "Length" = some (.int (8 * key.length))

theorem CipherKind.ofMethod_of_mem {method : String} {cipher : CipherKind}
    (h : (method, cipher) ∈ cipherMethods) : ofMethod method = .ok cipher := by
  simp only [cipherMethods, List.mem_cons, Prod.mk.injEq, List.not_mem_nil, or_false] at h
  rcases h with ⟨rfl, rfl⟩ | ⟨rfl, rfl⟩ | ⟨rfl, rfl⟩ <;> rfl

namespace Crypt

theorem lengthInBytes_bits {n : Nat} (h : 5 ≤ n) : lengthInBytes (8 * n) = n := by
  unfold lengthInBytes
  omega

theorem decodeCipher_of_names {c : Crypt} {parms : DecodeParms} {cipher : CipherKind}
    (h : parms.NamesCipher c.key cipher) : c.decodeCipher (some parms) = .ok cipher := by
  obtain ⟨⟨method, hmethod, hmem⟩, hlength⟩ := h
  have hname : parms.name? "CFM" = .ok (some method) := by
    rw [DecodeParms.name?, hmethod]
  have hcipher := CipherKind.ofMethod_of_mem hmem
  rcases hlength with hnone | ⟨hfive, hsome⟩
  · simp [decodeCipher, hname, hcipher, hnone, bind, Except.bind, pure, Except.pure]
  · have hint : parms.intD "Length" 0 = .ok (8 * c.key.length) := by
      rw [DecodeParms.intD, hsome]
    simp [decodeCipher, hname, hcipher, hsome, hint, lengthInBytes_bits hfive, bind, Except.bind,
      pure, Except.pure]

/-- The codec as if made with another cipher and IV, amid whatever it is doing. -/
def recast (cipher : CipherKind) (iv : Option Bytes) (c : Crypt) : Crypt := { c with cipher, iv }

section
variable (cipher : CipherKind) (iv : Option Bytes) (c : Crypt)

theorem encodeBlock_recast (data : Bytes) :
    (c.recast cipher iv).encodeBlock data = (c.encodeBlock data).map (recast cipher iv) := by
  unfold encodeBlock recast
  dsimp only
  split <;> rfl

theorem endEncode_recast :
    (c.recast cipher iv).endEncode = c.endEncode.map (recast cipher iv) := by
  unfold endEncode recast
  dsimp only
  split <;> rfl

theorem decodeBlock_recast (data : Bytes) :
    (c.recast cipher iv).decodeBlock data = (c.decodeBlock data).map (recast cipher iv) := by
  obtain ⟨kind, key, own, handle, session⟩ := c
  cases session with
  | aesIv got =>
    have hdecryptor (got' : Bytes) : decryptor ⟨cipher, key, iv, handle, .aesIv got⟩ got' =
        decryptor ⟨kind, key, own, handle, .aesIv got⟩ got' := rfl
    simp only [decodeBlock, recast, hdecryptor]
    split
    · rfl
    · split <;> rfl
  | idle | rc4 | aesEncrypt | aesDecrypt => rfl

theorem endDecode_recast :
    (c.recast cipher iv).endDecode = c.endDecode.map (recast cipher iv) := by
  unfold endDecode recast
  dsimp only
  split <;> rfl

end

/-- A session under parameters begins as one of the cipher that they name. -/
theorem beginDecode_recast {cipher : CipherKind} (iv : Option Bytes) {c : Crypt}
    {parms : Option DecodeParms} (h : c.decodeCipher parms = .ok cipher) (ctx : CryptoContext) :
    (c.recast cipher iv).beginDecode none ctx =
      ((c.beginDecode parms ctx).1, (c.beginDecode parms ctx).2.map (recast cipher iv)) := by
  have hsame : decodeCipher { c with session := .idle } parms = .ok cipher := h
  have hown : decodeCipher { c.recast cipher iv with session := .idle } none = .ok cipher := rfl
  have hresolve : resolve { c.recast cipher iv with session := .idle } cipher ctx =
      resolve { c with session := .idle } cipher ctx := rfl
  simp only [beginDecode, hsame, hown, hresolve]
  rcases resolve { c with session := .idle } cipher ctx with ⟨ctx', e | handle⟩
  · rfl
  · refine Prod.ext rfl ?_
    simp only [openDecode, recast]
    split
    · split <;> rfl
    · rfl
    · rfl

end Crypt

namespace Codec

def recast (cipher : CipherKind) (iv : Option Bytes) : Codec → Codec
  | .crypt c => .crypt (c.recast cipher iv)
  | c => c

section
variable (cipher : CipherKind) (iv : Option Bytes) (c : Codec) (direction : Direction)

theorem kind_recast : (c.recast cipher iv).kind = c.kind := by cases c <;> rfl

theorem block_recast (data : Bytes) : (c.recast cipher iv).block direction data =
    (c.block direction data).map (recast cipher iv) := by
  cases c with
  | crypt c =>
    cases direction with
    | encode => exact congrArg (Step.map Codec.crypt) (c.encodeBlock_recast cipher iv data)
    | decode => exact congrArg (Step.map Codec.crypt) (c.decodeBlock_recast cipher iv data)
  | runLength | lzw | ascii85 | asciiHex | flate => cases direction <;> rfl

theorem finish_recast :
    (c.recast cipher iv).finish direction = (c.finish direction).map (recast cipher iv) := by
  cases c with
  | crypt c =>
    cases direction with
    | encode => exact congrArg (Step.map Codec.crypt) (c.endEncode_recast cipher iv)
    | decode => exact congrArg (Step.map Codec.crypt) (c.endDecode_recast cipher iv)
  | runLength | lzw | ascii85 | asciiHex | flate => cases direction <;> rfl

end

theorem exists_crypt_of_fresh {codec : Codec} {c : Crypt}
    (h : codec.fresh = (Codec.crypt c).fresh) :
    ∃ d : Crypt, codec = .crypt d ∧ d.fresh = c.fresh := by
  cases codec with
  | crypt d => exact ⟨d, rfl, Codec.crypt.inj h⟩
  | runLength | lzw | ascii85 | asciiHex | flate => cases h

end Codec

namespace Engine

def recast (cipher : CipherKind) (iv : Option Bytes) (e : Engine) : Engine :=
  ⟨e.codec.recast cipher iv, e.session⟩

/-- The same answer, and engines that differ in what the codec was made with. -/
def recastReply (cipher : CipherKind) (iv : Option Bytes) (o : Engine × Reply) : Engine × Reply :=
  (o.1.recast cipher iv, o.2)

section
variable (cipher : CipherKind) (iv : Option Bytes) (e : Engine) (direction : Direction)

theorem refuse_recast (call : Call) :
    (e.recast cipher iv).refuse call = recastReply cipher iv (e.refuse call) := by
  simp only [refuse, recastReply, kind, phase, recast, Codec.kind_recast]

theorem unbound_recast : (e.recast cipher iv).unbound = e.unbound := by
  simp only [unbound, kind, recast, Codec.kind_recast]

theorem deliver_recast (flush : Bool) (step : Step Codec) :
    (e.recast cipher iv).deliver flush (step.map (Codec.recast cipher iv)) =
      recastReply cipher iv (e.deliver flush step) := by
  obtain ⟨c, phase, sink?⟩ := e
  cases sink? with
  | none => exact Prod.ext rfl (unbound_recast cipher iv _)
  | some sink =>
    have hcarry : sink.carryOut flush (step.map (Codec.recast cipher iv)) =
        sink.carryOut flush step := Sink.carryOut_congr rfl rfl sink flush
    simp only [deliver, recast, hcarry]
    split <;> rfl

theorem block_recast (data : Bytes) : (e.recast cipher iv).block direction data =
    recastReply cipher iv (e.block direction data) := by
  have hphase : (e.recast cipher iv).phase = e.phase := rfl
  unfold block
  rw [hphase]
  split
  · have hblock := e.codec.block_recast cipher iv direction data
    rw [← deliver_recast, ← hblock]
    rfl
  · exact refuse_recast cipher iv e _

theorem finish_recast : (e.recast cipher iv).finish direction =
    recastReply cipher iv (e.finish direction) := by
  have hphase : (e.recast cipher iv).phase = e.phase := rfl
  have hfinish : (e.recast cipher iv).codec.finish direction =
      (e.codec.finish direction).map (Codec.recast cipher iv) :=
    e.codec.finish_recast cipher iv direction
  unfold finish
  rw [hphase, hfinish, deliver_recast]
  split
  · rcases e.deliver true (e.codec.finish direction) with ⟨⟨c, phase, sink?⟩, reply⟩
    cases reply with
    | done =>
      cases sink? with
      | none => exact Prod.ext rfl (unbound_recast cipher iv _)
      | some sink => rfl
    | returned | refused | broken => rfl
  · exact refuse_recast cipher iv e _

theorem fail_recast : (e.recast cipher iv).fail = recastReply cipher iv e.fail := by
  have hphase : (e.recast cipher iv).phase = e.phase := rfl
  unfold fail
  rw [hphase]
  split
  · obtain ⟨c, phase, sink?⟩ := e
    cases sink? with
    | none => exact Prod.ext rfl (unbound_recast cipher iv _)
    | some sink => rfl
  · exact refuse_recast cipher iv _ _

theorem perform_recast {a : EngineAction} (ha : a.opens? = none) (ctx : CryptoContext) :
    a.perform ctx (e.recast cipher iv) =
      ((a.perform ctx e).1, recastReply cipher iv (a.perform ctx e).2) := by
  cases a with
  | start | oneShot => cases ha
  | block direction data => exact Prod.ext rfl (block_recast cipher iv e direction data)
  | finish direction => exact Prod.ext rfl (finish_recast cipher iv e direction)
  | fail => exact Prod.ext rfl (fail_recast cipher iv e)

end

section
variable {cipher : CipherKind} (iv : Option Bytes) {e : Engine} {c : Crypt}
  {parms : Option DecodeParms}

theorem start_recast (hcodec : e.codec = .crypt c) (h : c.decodeCipher parms = .ok cipher)
    (sink : Sink) (ctx : CryptoContext) :
    (e.recast cipher iv).start .decode sink none ctx =
      ((e.start .decode sink parms ctx).1,
        recastReply cipher iv (e.start .decode sink parms ctx).2) := by
  obtain ⟨_, session⟩ := e
  cases hcodec
  have hbegin : (Codec.crypt (c.recast cipher iv)).start .decode ctx none =
      (((Codec.crypt c).start .decode ctx parms).1,
        ((Codec.crypt c).start .decode ctx parms).2.map (Codec.recast cipher iv)) := by
    simp only [Codec.start, Codec.beginDecode, Crypt.beginDecode_recast iv h]
    rfl
  have hphase : (recast cipher iv ⟨.crypt c, session⟩).phase = session.phase := rfl
  have hphase' : (⟨.crypt c, session⟩ : Engine).phase = session.phase := rfl
  cases hp : session.phase.isActive with
  | true =>
    simp only [start, hphase, hphase', hp, ↓reduceIte]
    exact Prod.ext rfl (refuse_recast cipher iv _ _)
  | false =>
    simp only [start, hphase, hphase', hp, Codec.supports, Bool.not_true, Bool.false_eq_true,
      ↓reduceIte]
    have hdeliver := deliver_recast cipher iv ⟨.crypt c, .active .decode sink⟩ false
      ((Codec.crypt c).start .decode ctx parms).2
    have hctx := congrArg Prod.fst hbegin
    have hstep := congrArg Prod.snd hbegin
    exact Prod.ext hctx ((congrArg (deliver _ false) hstep).trans hdeliver)

theorem opening_recast (hcodec : e.codec = .crypt c) (h : c.decodeCipher parms = .ok cipher)
    (data? : Option Bytes) (sink : Sink) (ctx : CryptoContext) :
    (EngineAction.opening .decode none data? sink).perform ctx (e.recast cipher iv) =
      let answered := (EngineAction.opening .decode parms data? sink).perform ctx e
      (answered.1, recastReply cipher iv answered.2) := by
  have hstart := start_recast iv hcodec h sink ctx
  cases data? with
  | none => exact hstart
  | some data =>
    show (e.recast cipher iv).oneShot .decode sink none data ctx =
      ((e.oneShot .decode sink parms data ctx).1,
        recastReply cipher iv (e.oneShot .decode sink parms data ctx).2)
    unfold oneShot
    rw [hstart]
    rcases e.start .decode sink parms ctx with ⟨ctx', e', reply⟩
    cases reply with
    | done =>
      have hblock := block_recast cipher iv e' .decode data
      simp only [recastReply] at hblock ⊢
      rw [hblock]
      rcases e'.block .decode data with ⟨e'', reply⟩
      cases reply with
      | done => exact Prod.ext rfl (finish_recast cipher iv e'' .decode)
      | returned | refused | broken => rfl
    | returned | refused | broken => rfl

end
end Engine

namespace Client

def recast (cipher : CipherKind) (iv : Option Bytes) (p : Client) : Client :=
  ⟨p.ctx, p.engine.recast cipher iv⟩

theorem answers_recast (cipher : CipherKind) (iv : Option Bytes) (p : Client)
    {calls : List EngineAction} (hcalls : ∀ a ∈ calls, a.opens? = none) :
    (p.recast cipher iv).answers calls = p.answers calls := by
  induction calls generalizing p with
  | nil => rfl
  | cons a calls ih =>
    obtain ⟨ha, hcalls⟩ := List.forall_mem_cons.1 hcalls
    have hperform := Engine.perform_recast cipher iv p.engine ha p.ctx
    have hnext : (p.recast cipher iv).perform a = (p.perform a).recast cipher iv :=
      congrArg (fun r => Client.mk r.1 r.2.1) hperform
    have hanswer : (p.recast cipher iv).answer a = p.answer a :=
      congrArg (fun r => (r.2.2, r.2.1.session)) hperform
    rw [answers_cons, answers_cons, hnext, hanswer, ih _ hcalls]

/-- A session under parameters that name a cipher, told by a codec of that cipher. -/
theorem answers_opening_recast {cipher : CipherKind} (iv : Option Bytes) {p : Client} {c : Crypt}
    {parms : Option DecodeParms} (hcodec : p.engine.codec = .crypt c)
    (h : c.decodeCipher parms = .ok cipher) (data? : Option Bytes) (sink : Sink)
    {calls : List EngineAction} (hcalls : ∀ a ∈ calls, a.opens? = none) :
    (p.recast cipher iv).answers (.opening .decode none data? sink :: calls) =
      p.answers (.opening .decode parms data? sink :: calls) := by
  have hopening := Engine.opening_recast iv hcodec h data? sink p.ctx
  have hnext : (p.recast cipher iv).perform (.opening .decode none data? sink) =
      (p.perform (.opening .decode parms data? sink)).recast cipher iv :=
    congrArg (fun r => Client.mk r.1 r.2.1) hopening
  have hanswer : (p.recast cipher iv).answer (.opening .decode none data? sink) =
      p.answer (.opening .decode parms data? sink) :=
    congrArg (fun r => (r.2.2, r.2.1.session)) hopening
  rw [answers_cons, answers_cons, hnext, hanswer, answers_recast cipher iv _ hcalls]

end Client

/-- A method among the decode parameters of a session makes it a session of the cipher that the
method names: under a context that offers the same ciphers, every call is answered as on a codec
made for that cipher with the same key. However the session ends, whatever is begun after it goes as
if it had not been. -/
theorem Crypt.method_names_session {c : Crypt} {p : Client}
    (h : Engine.Reachable (.crypt c) p.engine) (hidle : p.engine.phase.isActive = false)
    {parms : DecodeParms} {cipher : CipherKind} (hnames : parms.NamesCipher c.key cipher)
    (data? : Option Bytes) (sink : Sink) {calls : List EngineAction}
    (hcalls : ∀ a ∈ calls, a.opens? = none) :
    (∀ (c' : Crypt) (q : Client), c'.cipher = cipher → c'.key = c.key →
      Engine.Reachable (.crypt c') q.engine → q.engine.phase.isActive = false →
      q.ctx.Matches p.ctx →
        p.answers (.opening .decode (some parms) data? sink :: calls) =
          q.answers (.opening .decode none data? sink :: calls)) ∧
    let after := p.run (.opening .decode (some parms) data? sink :: calls)
    after.engine.phase.isActive = false →
      ∀ direction parms' data?' sink' later,
        after.answers (.opening direction parms' data?' sink' :: later) =
          p.answers (.opening direction parms' data?' sink' :: later) := by
  obtain ⟨d, hcodec, hd⟩ := Codec.exists_crypt_of_fresh h.settings
  have hkept : d.key = c.key := by
    have hsame : d.fresh.key = c.fresh.key := by rw [hd]
    exact hsame
  constructor
  · intro c' q hcipher hkey hq hqidle hoffers
    have hbound : d.decodeCipher (some parms) = .ok cipher := by
      apply decodeCipher_of_names
      rwa [hkept]
    have hcast : (p.recast cipher c'.iv).engine.codec.fresh =
        .crypt ⟨cipher, d.key, c'.iv, none, .idle⟩ := by
      show (p.engine.codec.recast cipher c'.iv).fresh = _
      rw [hcodec]
      rfl
    have hsettings : (p.recast cipher c'.iv).engine.codec.fresh = q.engine.codec.fresh := by
      rw [hcast, hq.settings, ← hcipher, hkept, ← hkey]
      rfl
    rw [← Client.answers_opening_recast c'.iv hcodec hbound data? sink hcalls]
    exact Client.answers_of_decode hsettings hidle hqidle hoffers.symm none data? sink hcalls
  · intro after hended direction parms' data?' sink' later
    have hdecode : ∀ a ∈ EngineAction.opening .decode (some parms) data? sink :: calls,
        ∀ given, a.opens? ≠ some (.encode, given) := by
      rw [List.forall_mem_cons]
      constructor
      · intro given hopens
        cases data? <;> cases hopens
      · intro a ha given hopens
        rw [hcalls a ha] at hopens
        cases hopens
    obtain ⟨hsettings, hoffers, hentropy⟩ := p.run_of_decode hdecode
    exact Client.answers_of_opening hsettings hended hidle hoffers hentropy ..

/-- An AES codec, and a session of data in two blocks that is RC4. -/
theorem Crypt.method_names_session_rc4 :
    let c : Crypt := { cipher := .aes128Cbc, key := List.replicate 16 5 }
    let c' : Crypt := { cipher := .rc4, key := List.replicate 16 5 }
    let parms : DecodeParms := .ofList [("CFM", .name "V2"), ("Length", .int 128)]
    let calls : List EngineAction := [.block .decode [1, 2, 3], .block .decode [4], .finish .decode]
    parms.NamesCipher c.key .rc4 ∧
      (Client.new c {}).answers (.opening .decode (some parms) none .buffer :: calls) =
        (Client.new c' {}).answers (.opening .decode none none .buffer :: calls) := by
  intro c c' parms calls
  have hnames : parms.NamesCipher c.key .rc4 :=
    ⟨⟨"V2", by decide, by decide⟩, .inr ⟨by decide, by decide⟩⟩
  refine ⟨hnames, ?_⟩
  have hcalls : ∀ a ∈ calls, a.opens? = none := by simp [calls, EngineAction.opens?]
  exact (method_names_session (p := Client.new c {}) .new rfl hnames none .buffer hcalls).1 c'
    (Client.new c' {}) rfl rfl .new rfl (.refl _)

end PdfStream
