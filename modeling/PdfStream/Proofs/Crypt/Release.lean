import PdfStream.Proofs.Cipher.Blocks
import PdfStream.Proofs.Crypt.Inverse
import PdfStream.Proofs.Engine.Feed

/-!
What an AES session has written at any time. Decoding keeps the last block, which may be padding,
until the end of the session has looked at it; encoding keeps no more than a part of a block. Only
what has come in counts, not the blocks in which it came.
-/
namespace PdfStream

namespace Step

theorem Yields.joined {σ : Type} {r : Step σ} {s : σ} {out : Bytes} (h : r.Yields s out) :
    r.joined.Yields s out := by
  obtain ⟨hfault, rfl, rfl⟩ := h
  rw [Step.joined, hfault]
  exact yields_write r.state r.bytes

/-- What every block keeps, told by all that has come in and all that has been written. By induction
on the blocks. -/
theorem run_keeps_yields {σ : Type} {f : σ → Bytes → Step σ} {P : Bytes → Bytes → σ → Prop}
    (hstep : ∀ text out s data, P text out s →
      ∃ t more, (f s data).Yields t more ∧ P (text ++ data) (out ++ more) t)
    {text out : Bytes} {s : σ} (h : P text out s) (blocks : List Bytes) :
    ∃ t more, (run f s blocks).Yields t more ∧ P (text ++ blocks.flatten) (out ++ more) t := by
  induction blocks generalizing text out s with
  | nil =>
    refine ⟨s, [], yields_quiet s, ?_⟩
    simpa using h
  | cons data blocks ih =>
    obtain ⟨t, more, hblock, ht⟩ := hstep text out s data h
    obtain ⟨u, rest, hrun, hu⟩ := ih ht
    refine ⟨u, more ++ rest, ?_, ?_⟩
    · rw [run_cons]
      exact hblock.andThen hrun
    · rwa [List.flatten_cons, ← List.append_assoc, ← List.append_assoc]

end Step

namespace Cbc

theorem Encryptor.yields_run (e : Encryptor) (data : Bytes) :
    ∃ e' out, (Step.run Encryptor.addByte e data).Yields e' out := by
  have hadd (e : Encryptor) (b : UInt8) : (e.addByte b).fault = none := by
    unfold addByte
    dsimp only
    split <;> rfl
  exact ⟨_, _, Step.yields_of_no_fault (Step.fault_run hadd e data)⟩

theorem Decryptor.yields_run (d : Decryptor) (data : Bytes) :
    ∃ d' out, (Step.run Decryptor.addByte d data).Yields d' out := by
  have hadd (d : Decryptor) (b : UInt8) : (d.addByte b).fault = none := by
    unfold addByte
    split <;> rfl
  exact ⟨_, _, Step.yields_of_no_fault (Step.fault_run hadd d data)⟩

theorem Decryptor.bytes_finish_of_fault {d : Decryptor} {e : Error} (h : d.finish.fault = some e) :
    d.finish.bytes = [] := by
  unfold finish at h ⊢
  split
  next => rfl
  next hfull =>
    rw [if_neg hfull] at h
    dsimp only at h ⊢
    split at h
    next => cases h
    next => rfl

end Cbc

namespace Crypt
open Cbc (Encryptor Decryptor encryptBlocks decryptBlocks)

def encryptor (key iv : Bytes) : Encryptor := ⟨8 * key.length, .ofKey key, .ofBytes iv, []⟩

def freshDecryptor (key iv : Bytes) : Decryptor := ⟨8 * key.length, .ofKey key, .ofBytes iv, []⟩

/-- A decode session in which `text` has come in and `out` been written. -/
inductive Received (key : Bytes) : (text out : Bytes) → Session → Prop
  | part {text : Bytes} (short : text.length < 16) : Received key text [] (.aesIv text)
  | past {iv text out : Bytes} {d : Decryptor} (whole : iv.length = 16)
    (run : (Step.run Decryptor.addByte (freshDecryptor key iv) text).Yields d out) :
    Received key (iv ++ text) out (.aesDecrypt d)

structure Receiving (key : Bytes) (cipher : CipherKind) (text out : Bytes) (c : Crypt) : Prop where
  own : c.key = key
  bound : c.handle = some ⟨cipher, .default⟩
  received : Received key text out c.session

def Sending (key iv : Bytes) (data out : Bytes) (c : Crypt) : Prop :=
  ∃ e, c.session = .aesEncrypt e ∧
    (Step.run Encryptor.addByte (encryptor key iv) data).Yields e out

section
variable {c : Crypt} {key text out : Bytes} {cipher : CipherKind}

theorem Receiving.block (haes : cipher ≠ .rc4) (hkey : cipher.AcceptsKeyLength key.length)
    (h : c.Receiving key cipher text out) (data : Bytes) :
    ∃ c' more, (c.decodeBlock data).Yields c' more ∧
      c'.Receiving key cipher (text ++ data) (out ++ more) := by
  obtain ⟨hown, hbound, hreceived⟩ := h
  obtain ⟨kind, own, iv, handle, session⟩ := c
  cases hown
  cases hbound
  cases hreceived with
  | part short =>
    simp only [decodeBlock]
    split
    next hless =>
      have hall : data.length ≤ 16 - text.length := by
        rw [List.length_append, List.length_take] at hless
        omega
      rw [List.take_of_length_le hall] at hless ⊢
      exact ⟨_, [], Step.yields_quiet _, rfl, rfl, .part hless⟩
    next hnot =>
      have hwhole : (text ++ data.take (16 - text.length)).length = 16 := by
        rw [List.length_append, List.length_take] at hnot ⊢
        omega
      have hdecryptor : decryptor ⟨kind, own, iv, some ⟨cipher, .default⟩, .aesIv text⟩
          (text ++ data.take (16 - text.length)) =
          .ok (freshDecryptor own (text ++ data.take (16 - text.length))) :=
        (cbc_eq haes hkey hwhole).2
      obtain ⟨d, more, hmore⟩ := Decryptor.yields_run
        (freshDecryptor own (text ++ data.take (16 - text.length))) (data.drop (16 - text.length))
      rw [hdecryptor]
      refine ⟨_, more, hmore.joined.map _, rfl, rfl, ?_⟩
      have hpast := Received.past hwhole hmore
      rwa [List.append_assoc, List.take_append_drop] at hpast
  | @past before rest _ d whole run =>
    obtain ⟨d', more, hmore⟩ := d.yields_run data
    refine ⟨_, more, hmore.joined.map _, rfl, rfl, ?_⟩
    rw [List.append_assoc]
    exact .past whole (run.run_append hmore)

theorem Sending.block {iv data : Bytes} (h : c.Sending key iv data out) (more : Bytes) :
    ∃ c' written, (c.encodeBlock more).Yields c' written ∧
      c'.Sending key iv (data ++ more) (out ++ written) := by
  obtain ⟨e, hsession, hrun⟩ := h
  obtain ⟨e', written, hmore⟩ := e.yields_run more
  unfold encodeBlock
  rw [hsession]
  exact ⟨_, written, hmore.joined.map _, e', rfl, hrun.run_append hmore⟩

end

section
variable {c : Crypt} {ctx : CryptoContext} {parms : Option DecodeParms} {cipher : CipherKind}

/-- The cipher of a session that could begin takes the key. -/
theorem beginDecode_of_no_fault (hcipher : c.decodeCipher parms = .ok cipher)
    (h : (c.beginDecode parms ctx).2.fault = none) :
    cipher.AcceptsKeyLength c.key.length ∧ (c.beginDecode parms ctx).2 =
      openDecode { c with session := .idle, handle := some ⟨cipher, cipher.home⟩ }
        ⟨cipher, cipher.home⟩ := by
  have hsame : decodeCipher { c with session := .idle } parms = .ok cipher := hcipher
  unfold beginDecode at h ⊢
  dsimp only at h ⊢
  rw [hsame] at h ⊢
  dsimp only at h ⊢
  rcases hresolve : resolve { c with session := .idle } cipher ctx with ⟨ctx', e | handle⟩
  · rw [hresolve] at h
    cases h
  · obtain ⟨rfl, hkey⟩ := eq_of_resolve (congrArg Prod.snd hresolve)
    exact ⟨hkey, rfl⟩

theorem receiving_beginDecode (haes : cipher ≠ .rc4) (hcipher : c.decodeCipher parms = .ok cipher)
    (h : (c.beginDecode parms ctx).2.fault = none) :
    cipher.AcceptsKeyLength c.key.length ∧ ∃ s, (c.beginDecode parms ctx).2.Yields s [] ∧
      s.Receiving c.key cipher [] [] := by
  obtain ⟨hkey, hbegin⟩ := beginDecode_of_no_fault hcipher h
  rw [hbegin, home_of_ne_rc4 haes]
  have hopen : openDecode { c with session := .idle, handle := some ⟨cipher, .default⟩ }
      ⟨cipher, .default⟩ = .quiet { c with session := .aesIv [],
                                           handle := some ⟨cipher, .default⟩ } := by
    unfold openDecode
    cases hkind : cipher with
    | rc4 => exact absurd hkind haes
    | aes128Cbc | aes256Cbc => rfl
  rw [hopen]
  exact ⟨hkey, _, Step.yields_quiet _, rfl, rfl, .part (Nat.zero_lt_succ 15)⟩

theorem eq_of_cbcEncryptor {handle : CipherHandle} {key iv : Bytes} {e : Encryptor}
    (h : handle.cbcEncryptor key iv = .ok e) : iv.length = 16 ∧ e = encryptor key iv := by
  unfold CipherHandle.cbcEncryptor Encryptor.create at h
  cases hcheck : handle.check .aes128Cbc [.aes128Cbc, .aes256Cbc] key with
  | error e =>
    rw [hcheck] at h
    cases h
  | ok _ =>
    rw [hcheck] at h
    cases hlengths : Cbc.checkLengths key iv with
    | error e =>
      rw [hlengths] at h
      cases h
    | ok _ =>
      rw [hlengths] at h
      cases h
      refine ⟨?_, rfl⟩
      by_contra hiv
      rw [Cbc.checkLengths, if_pos hiv] at hlengths
      cases hlengths

/-- The IV of an AES session is the codec's own, or else a drawn one. -/
theorem openEncode_aes (c : Crypt) (ctx : CryptoContext) (handle : CipherHandle)
    (haes : handle.kind ≠ .rc4) :
    ∃ iv, (∀ own, c.iv = some own → own = iv) ∧ (c.openEncode handle ctx).2 =
      match handle.cbcEncryptor c.key iv with
      | .ok e => .write { c with session := .aesEncrypt e } iv
      | .error e => .stop c e := by
  unfold openEncode
  cases hkind : handle.kind with
  | rc4 => exact absurd hkind haes
  | aes128Cbc | aes256Cbc =>
    cases hown : c.iv with
    | none =>
      refine ⟨ctx.drawIv.2, nofun, ?_⟩
      dsimp only
      cases handle.cbcEncryptor c.key ctx.drawIv.2 <;> rfl
    | some iv =>
      refine ⟨iv, fun own h => (Option.some.inj h).symm, ?_⟩
      dsimp only
      cases handle.cbcEncryptor c.key iv <;> rfl

theorem sending_beginEncode (haes : c.cipher ≠ .rc4) (h : (c.beginEncode ctx).2.fault = none) :
    ∃ iv s, iv.length = 16 ∧ (∀ own, c.iv = some own → own = iv) ∧
      (c.beginEncode ctx).2.Yields s iv ∧ s.Sending c.key iv [] [] := by
  unfold beginEncode at h ⊢
  dsimp only at h ⊢
  rcases hresolve : resolve { c with session := .idle } c.cipher ctx with ⟨ctx', e | handle⟩
  · rw [hresolve] at h
    cases h
  obtain ⟨rfl, -⟩ := eq_of_resolve (congrArg Prod.snd hresolve)
  rw [hresolve] at h
  dsimp only at h ⊢
  obtain ⟨iv, hiv, hopen⟩ := openEncode_aes
    { c with session := .idle, handle := some ⟨c.cipher, c.cipher.home⟩ } ctx' ⟨_, _⟩ haes
  rw [hopen] at h ⊢
  cases hmade : CipherHandle.cbcEncryptor ⟨c.cipher, c.cipher.home⟩ c.key iv with
  | error e =>
    rw [hmade] at h
    cases h
  | ok e =>
    obtain ⟨hlength, rfl⟩ := eq_of_cbcEncryptor hmade
    exact ⟨iv, _, hlength, hiv, Step.yields_write _ _, _, rfl, Step.yields_quiet _⟩

theorem fed_decode_aes (haes : cipher ≠ .rc4) (hcipher : c.decodeCipher parms = .ok cipher)
    (h : (c.beginDecode parms ctx).2.fault = none) (blocks : List Bytes) :
    ∃ s out, ((Codec.crypt c).fed .decode ctx parms blocks).Yields (.crypt s) out ∧
      s.Receiving c.key cipher blocks.flatten out := by
  obtain ⟨hkey, s, hbegin, hs⟩ := receiving_beginDecode haes hcipher h
  obtain ⟨t, out, hrun, s', rfl, hs'⟩ := Step.run_keeps_yields
    (f := fun (c : Codec) data => c.block .decode data)
    (P := fun text out t => ∃ s, t = .crypt s ∧ s.Receiving c.key cipher text out)
    (by
      rintro text out _ data ⟨s, rfl, hs⟩
      obtain ⟨s', more, hblock, hs'⟩ := hs.block haes hkey data
      exact ⟨_, more, hblock.map _, s', rfl, hs'⟩)
    ⟨s, rfl, hs⟩ blocks
  exact ⟨s', out, (hbegin.map Codec.crypt).andThen hrun, hs'⟩

theorem fed_encode_aes (parms : Option DecodeParms) (haes : c.cipher ≠ .rc4)
    (h : (c.beginEncode ctx).2.fault = none) :
    ∃ iv, iv.length = 16 ∧ (∀ own, c.iv = some own → own = iv) ∧ ∀ blocks : List Bytes,
      ∃ s out, ((Codec.crypt c).fed .encode ctx parms blocks).Yields (.crypt s) (iv ++ out) ∧
        s.Sending c.key iv blocks.flatten out := by
  obtain ⟨iv, s, hiv, hown, hbegin, hs⟩ := sending_beginEncode haes h
  refine ⟨iv, hiv, hown, fun blocks => ?_⟩
  obtain ⟨t, out, hrun, s', rfl, hs'⟩ := Step.run_keeps_yields
    (f := fun (c : Codec) data => c.block .encode data)
    (P := fun data out t => ∃ s, t = .crypt s ∧ s.Sending c.key iv data out)
    (by
      rintro data out _ more ⟨s, rfl, hs⟩
      obtain ⟨s', written, hblock, hs'⟩ := hs.block more
      exact ⟨_, written, hblock.map _, s', rfl, hs'⟩)
    ⟨s, rfl, hs⟩ blocks
  exact ⟨s', out, (hbegin.map Codec.crypt).andThen hrun, hs'⟩

end

section
variable {c : Crypt} {key iv text out : Bytes} {cipher : CipherKind} {s : Session}

theorem Received.eq_nil (h : Received key text out s) (hshort : text.length < 16) : out = [] := by
  cases h with
  | part => rfl
  | past whole =>
    rw [List.length_append] at hshort
    omega

/-- Behind the IV the data are decrypted. -/
theorem Received.exists_run (h : Received key (iv ++ text) out s) (hiv : iv.length = 16) :
    ∃ d, s = .aesDecrypt d ∧
      (Step.run Decryptor.addByte (freshDecryptor key iv) text).Yields d out := by
  generalize hall : iv ++ text = all at h
  cases h with
  | part short =>
    rw [← hall, List.length_append] at short
    omega
  | @past before rest _ d whole run =>
    obtain ⟨rfl, rfl⟩ := List.append_inj hall (hiv.trans whole.symm)
    exact ⟨d, rfl, run⟩

theorem Receiving.out_eq (h : c.Receiving key cipher (iv ++ text) out) (hiv : iv.length = 16) :
    out = decryptBlocks (.ofKey key) (.ofBytes iv) (Cbc.ready text) := by
  obtain ⟨d, -, hrun⟩ := h.received.exists_run hiv
  obtain ⟨d', hready⟩ := Cbc.run_decryptor (d := freshDecryptor key iv) (Nat.zero_le 16) text
  exact hrun.2.2.symm.trans hready.2.2

theorem Sending.out_eq (h : c.Sending key iv text out) :
    out = encryptBlocks (.ofKey key) (.ofBytes iv) text := by
  obtain ⟨e, -, hrun⟩ := h
  obtain ⟨e', hready⟩ := Cbc.run_encryptor (e := encryptor key iv) (Nat.zero_lt_succ 15) text
  exact hrun.2.2.symm.trans hready.2.2

/-- The end of the session writes nothing unless the last block is padded. -/
theorem Receiving.endDecode (h : c.Receiving key cipher (iv ++ text) out) (hiv : iv.length = 16)
    (hwrites : c.endDecode.bytes ≠ []) :
    Cbc.plainText? (.ofKey key) (.ofBytes iv) text = some (out ++ c.endDecode.bytes) := by
  obtain ⟨d, hsession, hrun⟩ := h.received.exists_run hiv
  have hend : c.endDecode.bytes = d.finish.bytes := by
    unfold Crypt.endDecode
    rw [hsession]
    rfl
  rw [hend] at hwrites ⊢
  cases hfault : d.finish.fault with
  | some e => exact absurd (Cbc.Decryptor.bytes_finish_of_fault hfault) hwrites
  | none =>
    have hall := hrun.andThen (Step.yields_of_no_fault hfault)
    rw [← Cbc.decrypted_eq (8 * key.length)]
    exact hall.output?

end

/-- Whatever the blocks, the sink and the calls before: in an AES decode session the last block that
has come in is held back, and what is in front of it, behind the IV, has been decrypted and written.
The end of the session adds nothing unless the last block is padded, and no padding. An AES encode
session has written the IV and has encrypted all whole blocks that have come in. -/
theorem session_writes_all_but_last {c : Crypt} {e e₁ : Engine} (hcodec : e.codec = .crypt c)
    {sink : Sink} {ctx ctx' : CryptoContext} :
    (∀ parms cipher, c.decodeCipher parms = .ok cipher → cipher ≠ .rc4 →
      e.beginDecode sink parms ctx = (ctx', e₁, .done) → ∀ blocks : List Bytes,
        (sink.IsBuffer → ∃ e₂, e₁.feed .decode blocks = (e₂, .done)) ∧
        ∀ e₂, e₁.feed .decode blocks = (e₂, .done) →
          (blocks.flatten.length < 16 → e₂.session.held = sink.content) ∧
          ∀ iv text, blocks.flatten = iv ++ text → iv.length = 16 →
            e₂.session.held = sink.content ++ decryptBlocks (.ofKey c.key) (.ofBytes iv)
              (text.take (16 * ((text.length - 1) / 16))) ∧
            e₂.session.held.length = sink.content.length + 16 * ((text.length - 1) / 16) ∧
            ∀ t, e₂.endDecode.2.sink? = some t → t.content ≠ e₂.session.held →
              ∃ data, text.length % 16 = 0 ∧
                Padding.unpad (decryptBlocks (.ofKey c.key) (.ofBytes iv) text) = .ok data ∧
                t.content <+: sink.content ++ data) ∧
    (c.cipher ≠ .rc4 → e.beginEncode sink ctx = (ctx', e₁, .done) →
      ∃ iv : Bytes, iv.length = 16 ∧ (∀ own, c.iv = some own → own = iv) ∧
        ∀ blocks : List Bytes,
          (sink.IsBuffer → ∃ e₂, e₁.feed .encode blocks = (e₂, .done)) ∧
          ∀ e₂, e₁.feed .encode blocks = (e₂, .done) →
            e₂.session.held = sink.content ++ iv ++ encryptBlocks (.ofKey c.key) (.ofBytes iv)
              (blocks.flatten.take (16 * (blocks.flatten.length / 16)))) := by
  refine ⟨fun parms cipher hcipher haes hbegin blocks => ?_, fun haes hbegin => ?_⟩
  · obtain ⟨hstart, hfeed⟩ := Engine.feed_of_start hbegin
    obtain ⟨hbuffer, hdone⟩ := hfeed blocks
    rw [hcodec] at hstart hbuffer hdone
    obtain ⟨s, out, hfed, hs⟩ := fed_decode_aes haes hcipher hstart blocks
    refine ⟨fun hsink => hbuffer hsink hfed.1, fun e₂ hlast => ?_⟩
    obtain ⟨s', out', t, hfed', rfl, hcontent⟩ := hdone e₂ hlast
    cases hfed'.2.1.symm.trans hfed.2.1
    cases hfed'.2.2.symm.trans hfed.2.2
    rw [Session.held_active, hcontent]
    refine ⟨fun hshort => ?_, fun iv text hall hiv => ?_⟩
    · rw [hs.received.eq_nil hshort, List.append_nil]
    rw [hall] at hs
    have hout := hs.out_eq hiv
    refine ⟨congrArg _ hout, ?_, fun u hend hmore => ?_⟩
    · rw [List.length_append, hout, Cbc.length_decryptBlocks, Cbc.ready, List.length_take]
      omega
    · obtain ⟨taken, hu, hprefix⟩ := Engine.content_of_finish hend
      have hwrites : s.endDecode.bytes ≠ [] := by
        intro hnone
        have htaken : taken = [] := List.prefix_nil.1 (hnone ▸ hprefix)
        rw [hu, htaken, List.append_nil, hcontent] at hmore
        exact hmore rfl
      obtain ⟨hwhole, hunpad⟩ := Cbc.unpad_decryptBlocks (hs.endDecode hiv hwrites)
      refine ⟨_, hwhole, hunpad, ?_⟩
      rw [hu, hcontent, List.append_assoc, List.prefix_append_right_inj,
        List.prefix_append_right_inj]
      exact hprefix
  · obtain ⟨hstart, hfeed⟩ := Engine.feed_of_start hbegin
    rw [hcodec] at hstart hfeed
    obtain ⟨iv, hiv, hown, hfed⟩ := fed_encode_aes none haes hstart
    refine ⟨iv, hiv, hown, fun blocks => ?_⟩
    obtain ⟨hbuffer, hdone⟩ := hfeed blocks
    obtain ⟨s, out, hout, hs⟩ := hfed blocks
    refine ⟨fun hsink => hbuffer hsink hout.1, fun e₂ hlast => ?_⟩
    obtain ⟨s', out', t, hout', rfl, hcontent⟩ := hdone e₂ hlast
    cases hout'.2.2.symm.trans hout.2.2
    rw [Session.held_active, hcontent, Cbc.encryptBlocks_take, hs.out_eq, List.append_assoc]

/-- The IV ends in the second block. Of the two blocks of ciphertext the first is out. -/
theorem session_writes_first_of_two :
    let c : Crypt := { cipher := .aes128Cbc, key := List.replicate 16 7 }
    let blocks : List Bytes := [[1, 2, 3], List.replicate 28 4, List.replicate 17 5]
    ∃ ctx' e₁ e₂, ({ codec := .crypt c } : Engine).beginDecode .buffer none {} = (ctx', e₁, .done) ∧
      e₁.feed .decode blocks = (e₂, .done) ∧ e₂.session.held.length = 16 := by
  intro c blocks
  have hcodec : ({ codec := .crypt c } : Engine).codec = .crypt c := rfl
  have haes : CipherKind.aes128Cbc ≠ .rc4 := by decide
  obtain ⟨ctx', e₁, hbegin⟩ : ∃ ctx' e₁,
      ({ codec := .crypt c } : Engine).beginDecode .buffer none {} = (ctx', e₁, .done) :=
    ⟨_, _, rfl⟩
  obtain ⟨hbuffer, hheld⟩ := (session_writes_all_but_last hcodec).1 none .aes128Cbc rfl haes
    hbegin blocks
  obtain ⟨e₂, hfeed⟩ := hbuffer rfl
  obtain ⟨-, hlength, -⟩ := (hheld e₂ hfeed).2 _ _ (List.take_append_drop 16 _).symm (by decide)
  exact ⟨ctx', e₁, e₂, hbegin, hfeed, hlength.trans (by decide)⟩

end Crypt
end PdfStream
