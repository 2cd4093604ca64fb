import PdfStream.Crypt
import PdfStream.Proofs.Cipher.Cbc
import PdfStream.Proofs.Cipher.Rc4
import PdfStream.Proofs.Crypto.Context

/-!
Crypt sessions. Whatever the blocks, encoding masks or encrypts all the data; decoding under the
same key gives them back, the IV coming first. A session depends on the context only through what it
offers and the IV it draws.
-/
namespace PdfStream.Crypt

def encoding : Coder Crypt := ⟨fun data c => c.encodeBlock data, endEncode⟩

def decoding : Coder Crypt := ⟨fun data c => c.decodeBlock data, endDecode⟩

/-- What an encode session makes of the data. -/
def encoded (c : Crypt) (data : Bytes) : Option Bytes :=
  match c.session with
  | .rc4 stream => some (stream.mask data)
  | .aesEncrypt encryptor => Cbc.encrypted encryptor data
  | _ => none

/-- What a decode session makes of the data. The first bytes complete the IV. -/
def decoded (c : Crypt) (data : Bytes) : Option Bytes :=
  match c.session with
  | .rc4 stream => some (stream.mask data)
  | .aesIv iv =>
    let missing := 16 - iv.length
    if (iv ++ data.take missing).length < 16 then none
    else
      match c.decryptor (iv ++ data.take missing) with
      | .error _ => none
      | .ok decryptor => Cbc.decrypted decryptor (data.drop missing)
  | .aesDecrypt decryptor => Cbc.decrypted decryptor data
  | _ => none

theorem encoding_computes (c : Crypt) : encoding.Computes c (encoded c) := by
  refine Coder.computes_of_meaning (fun _ => True) encoded (fun _ _ _ _ => trivial) ?_ ?_ trivial
  · intro c data rest _
    obtain ⟨cipher, key, iv, handle, session⟩ := c
    cases session with
    | rc4 stream =>
      have hblock : encoding.block data ⟨cipher, key, iv, handle, .rc4 stream⟩ =
          .write ⟨cipher, key, iv, handle, .rc4 (stream.after data)⟩ (stream.mask data) := by
        simp only [encoding, encodeBlock, Rc4.process_eq]
      rw [hblock, Step.output?_write]
      exact congrArg some (stream.mask_append data rest)
    | aesEncrypt encryptor =>
      exact Coder.Computes.append Cbc.encoding_computes encryptor data rest
    | idle | aesIv _ | aesDecrypt _ => rfl
  · intro c _
    obtain ⟨cipher, key, iv, handle, session⟩ := c
    cases session with
    | aesEncrypt encryptor => exact (Cbc.encoding_computes encryptor).nil
    | rc4 _ | idle | aesIv _ | aesDecrypt _ => rfl

theorem pending_cbcDecryptor {handle : CipherHandle} {key iv : Bytes} {decryptor : Cbc.Decryptor}
    (h : handle.cbcDecryptor key iv = .ok decryptor) : decryptor.pending = [] := by
  unfold CipherHandle.cbcDecryptor Cbc.Decryptor.create at h
  cases hcheck : handle.check .aes128Cbc [.aes128Cbc, .aes256Cbc] key with
  | error e =>
    rw [hcheck] at h
    cases h
  | ok _ =>
    rw [hcheck] at h
    cases hlengths : Cbc.checkLengths key iv with
    | error e =>
      rw [hlengths] at h
      cases h
    | ok _ =>
      rw [hlengths] at h
      cases h
      rfl

theorem pending_decryptor {c : Crypt} {iv : Bytes} {decryptor : Cbc.Decryptor}
    (h : c.decryptor iv = .ok decryptor) : decryptor.pending = [] := by
  unfold Crypt.decryptor at h
  split at h
  · exact pending_cbcDecryptor h
  · cases h

theorem decodeWith_append (c : Crypt) (decryptor : Cbc.Decryptor) (data rest : Bytes) :
    Cbc.decrypted decryptor (data ++ rest) = (c.decodeWith decryptor data).output?.bind fun out =>
      (decoded (c.decodeWith decryptor data).state rest).map (out ++ ·) :=
  Coder.Computes.append Cbc.decoding_computes decryptor data rest

/-- While the IV is coming in: the block is short of it, or brings the rest and the first data. -/
theorem decoded_append_aesIv {c : Crypt} {got : Bytes} (hsession : c.session = .aesIv got) (data rest : Bytes) :
    decoded c (data ++ rest) = (c.decodeBlock data).output?.bind fun out =>
      (decoded (c.decodeBlock data).state rest).map (out ++ ·) := by
  obtain ⟨cipher, key, iv, handle, session⟩ := c
  cases hsession
  obtain ⟨missing, hmissing⟩ : ∃ missing, missing = 16 - got.length := ⟨_, rfl⟩
  by_cases hshort : (got ++ data.take missing).length < 16
  · have hless : data.length < missing := by
      rw [List.length_append, List.length_take] at hshort
      omega
    have htake : data.take missing = data := List.take_of_length_le (Nat.le_of_lt hless)
    rw [htake] at hshort
    have hblock : decodeBlock ⟨cipher, key, iv, handle, .aesIv got⟩ data =
        .quiet ⟨cipher, key, iv, handle, .aesIv (got ++ data)⟩ := by
      simp only [decodeBlock]
      rw [← hmissing, htake, if_pos hshort]
    have hleft : 16 - (got ++ data).length = missing - data.length := by
      rw [List.length_append]
      omega
    rw [hblock, Step.output?_quiet, Option.bind_some]
    simp only [decoded, Step.state_quiet, List.nil_append, Option.map_id']
    rw [← hmissing, hleft, List.take_append, htake, List.drop_append,
      List.drop_of_length_le (Nat.le_of_lt hless), List.nil_append, List.append_assoc]
    rfl
  · have hlong : missing ≤ data.length := by
      rw [List.length_append, List.length_take] at hshort
      omega
    have htake : (data ++ rest).take missing = data.take missing :=
      List.take_append_of_le_length hlong
    have hdrop : (data ++ rest).drop missing = data.drop missing ++ rest :=
      List.drop_append_of_le_length hlong
    simp only [decoded, decodeBlock]
    rw [← hmissing, htake, hdrop, if_neg hshort, if_neg hshort]
    cases decryptor ⟨cipher, key, iv, handle, .aesIv got⟩ (got ++ data.take missing) with
    | error e => rfl
    | ok decryptor => exact decodeWith_append _ decryptor (data.drop missing) rest

/-- Without any data after the IV there is no block that could end them. -/
theorem endDecode_aesIv {c : Crypt} {got : Bytes} (hsession : c.session = .aesIv got) : c.endDecode.output? = decoded c [] := by
  obtain ⟨cipher, key, iv, handle, session⟩ := c
  cases hsession
  simp only [endDecode, decoded, Step.output?_stop, List.take_nil, List.append_nil, List.drop_nil]
  split
  · rfl
  · split
    next => rfl
    next decryptor hbound =>
      have hstop : ¬decryptor.pending.length = 16 := by
        rw [pending_decryptor hbound]
        decide
      rw [Cbc.decrypted, Step.run_nil, Step.quiet_andThen, Cbc.Decryptor.finish, if_pos hstop]
      rfl

theorem decoding_computes (c : Crypt) : decoding.Computes c (decoded c) := by
  refine Coder.computes_of_meaning (fun _ => True) decoded (fun _ _ _ _ => trivial) ?_ ?_ trivial
  · intro c data rest _
    obtain ⟨cipher, key, iv, handle, session⟩ := c
    cases session with
    | rc4 stream =>
      have hblock : decoding.block data ⟨cipher, key, iv, handle, .rc4 stream⟩ =
          .write ⟨cipher, key, iv, handle, .rc4 (stream.after data)⟩ (stream.mask data) := by
        simp only [decoding, decodeBlock, Rc4.process_eq]
      rw [hblock, Step.output?_write]
      exact congrArg some (stream.mask_append data rest)
    | aesIv got => exact decoded_append_aesIv rfl data rest
    | aesDecrypt decryptor => exact decodeWith_append _ decryptor data rest
    | idle | aesEncrypt _ => rfl
  · intro c _
    obtain ⟨cipher, key, iv, handle, session⟩ := c
    cases session with
    | aesIv got => exact endDecode_aesIv (c := ⟨cipher, key, iv, handle, .aesIv got⟩) rfl
    | aesDecrypt decryptor => exact (Cbc.decoding_computes decryptor).nil
    | rc4 _ | idle | aesEncrypt _ => rfl

theorem resolve_of_live {ctx : CryptoContext} (hctx : ctx.IsLive) {c : Crypt} {cipher : CipherKind}
    (hkey : cipher.AcceptsKeyLength c.key.length) :
    (c.resolve cipher ctx).2 = .ok ⟨cipher, cipher.home⟩ := by
  have hcheck : cipher.checkKeyLength c.key.length = .ok () := if_pos hkey
  rw [resolve, hcheck]
  exact CryptoContext.selectCipher_of_live hctx cipher

theorem resolve_keeps {P : CryptoContext → Prop} (hP : CryptoContext.IsKept P) (c : Crypt)
    (cipher : CipherKind) {ctx : CryptoContext} (h : P ctx) : P (c.resolve cipher ctx).1 := by
  unfold resolve
  split
  · exact h
  · exact hP.load ctx h

theorem resolve_congr (c : Crypt) (cipher : CipherKind) {ctx ctx' : CryptoContext}
    (h : ctx.Matches ctx') : (c.resolve cipher ctx).2 = (c.resolve cipher ctx').2 := by
  unfold resolve
  split
  · rfl
  · exact CryptoContext.selectCipher_congr h cipher

theorem openEncode_keeps {P : CryptoContext → Prop} (hP : CryptoContext.IsKept P) (c : Crypt)
    (handle : CipherHandle) {ctx : CryptoContext} (h : P ctx) : P (c.openEncode handle ctx).1 := by
  unfold openEncode
  cases handle.kind with
  | rc4 =>
    dsimp only
    split <;> exact h
  | aes128Cbc | aes256Cbc =>
    cases c.iv with
    | some iv =>
      dsimp only
      split <;> exact h
    | none =>
      dsimp only
      split <;> exact hP.drawIv ctx h

theorem beginEncode_keeps {P : CryptoContext → Prop} (hP : CryptoContext.IsKept P) (c : Crypt)
    {ctx : CryptoContext} (h : P ctx) : P (c.beginEncode ctx).1 := by
  have hresolve := resolve_keeps hP { c with session := .idle } c.cipher h
  unfold beginEncode
  dsimp only
  split
  next heq =>
    rw [heq] at hresolve
    exact hresolve
  next heq =>
    rw [heq] at hresolve
    exact openEncode_keeps hP _ _ hresolve

theorem beginDecode_keeps {P : CryptoContext → Prop} (hP : CryptoContext.IsKept P) (c : Crypt)
    (parms : Option DecodeParms) {ctx : CryptoContext} (h : P ctx) :
    P (c.beginDecode parms ctx).1 := by
  unfold beginDecode
  dsimp only
  split
  next => exact h
  next cipher _ =>
    have hresolve := resolve_keeps hP { c with session := .idle } cipher h
    split
    next heq =>
      rw [heq] at hresolve
      exact hresolve
    next heq =>
      rw [heq] at hresolve
      exact hresolve

/-- No IV is drawn: the cipher has none, or the codec brings its own. -/
def IsFixed (c : Crypt) : Prop := c.cipher = .rc4 ∨ c.iv.isSome

/-- What a begin binds comes from the provider of the cipher, and takes the key. -/
theorem eq_of_resolve {c : Crypt} {cipher : CipherKind} {ctx : CryptoContext}
    {handle : CipherHandle} (h : (c.resolve cipher ctx).2 = .ok handle) :
    handle = ⟨cipher, cipher.home⟩ ∧ cipher.AcceptsKeyLength c.key.length := by
  unfold resolve CipherKind.checkKeyLength at h
  split at h
  next => cases h
  next hcheck =>
    split at hcheck
    next hkey => exact ⟨CryptoContext.eq_of_selectCipher h, hkey⟩
    next => cases hcheck

theorem openEncode_congr (c : Crypt) {handle : CipherHandle}
    (h : handle.kind = .rc4 ∨ c.iv.isSome) (ctx ctx' : CryptoContext) :
    (c.openEncode handle ctx).2 = (c.openEncode handle ctx').2 := by
  unfold openEncode
  cases hkind : handle.kind with
  | rc4 =>
    dsimp only
    split <;> rfl
  | aes128Cbc | aes256Cbc =>
    obtain ⟨iv, hiv⟩ := Option.isSome_iff_exists.1 (h.resolve_left (by rw [hkind]; decide))
    rw [hiv]
    dsimp only
    split <;> rfl

theorem beginEncode_congr {c : Crypt} (hc : c.IsFixed) {ctx ctx' : CryptoContext}
    (h : ctx.Matches ctx') : (c.beginEncode ctx).2 = (c.beginEncode ctx').2 := by
  have hresolve := resolve_congr { c with session := .idle } c.cipher h
  have hkind (handle : CipherHandle) (h : (resolve { c with session := .idle } c.cipher ctx).2 =
      .ok handle) : handle = ⟨c.cipher, c.cipher.home⟩ := (eq_of_resolve h).1
  unfold beginEncode
  dsimp only
  revert hresolve hkind
  rcases resolve { c with session := .idle } c.cipher ctx with ⟨ctx₁, result⟩
  rcases resolve { c with session := .idle } c.cipher ctx' with ⟨ctx₂, result'⟩
  rintro ⟨⟩ hkind
  cases result with
  | error e => rfl
  | ok handle =>
    refine openEncode_congr _ ?_ ctx₁ ctx₂
    rw [hkind handle rfl]
    exact hc

theorem beginDecode_congr (c : Crypt) (parms : Option DecodeParms) {ctx ctx' : CryptoContext}
    (h : ctx.Matches ctx') : (c.beginDecode parms ctx).2 = (c.beginDecode parms ctx').2 := by
  unfold beginDecode
  dsimp only
  split
  next => rfl
  next cipher _ =>
    have hresolve := resolve_congr { c with session := .idle } cipher h
    revert hresolve
    rcases resolve { c with session := .idle } cipher ctx with ⟨ctx₁, result⟩
    rcases resolve { c with session := .idle } cipher ctx' with ⟨ctx₂, result'⟩
    rintro ⟨⟩
    cases result <;> rfl

theorem rc4_eq {key : Bytes} (hkey : CipherKind.rc4.AcceptsKeyLength key.length) :
    (⟨.rc4, .legacy⟩ : CipherHandle).rc4 key = .ok (Rc4.scheduled key) := by
  have hcheck : CipherKind.rc4.checkKeyLength key.length = .ok () := if_pos hkey
  have hof : (⟨.rc4, .legacy⟩ : CipherHandle).rc4 key =
      CipherKind.rc4.checkKeyLength key.length >>= fun _ => Rc4.ofKey key := rfl
  rw [hof, hcheck]
  exact Rc4.ofKey_eq hkey

/-- A key that an AES cipher takes, and an IV of 16 bytes, make an encryptor and a decryptor. -/
theorem cbc_eq {cipher : CipherKind} (hcipher : cipher ≠ .rc4) {key iv : Bytes}
    (hkey : cipher.AcceptsKeyLength key.length) (hiv : iv.length = 16) :
    (⟨cipher, .default⟩ : CipherHandle).cbcEncryptor key iv =
        .ok ⟨8 * key.length, .ofKey key, .ofBytes iv, []⟩ ∧
      (⟨cipher, .default⟩ : CipherHandle).cbcDecryptor key iv =
        .ok ⟨8 * key.length, .ofKey key, .ofBytes iv, []⟩ := by
  have hcheck : (⟨cipher, .default⟩ : CipherHandle).check .aes128Cbc [.aes128Cbc, .aes256Cbc] key =
      .ok () := by
    have hlength : cipher.checkKeyLength key.length = .ok () := if_pos hkey
    cases cipher with
    | rc4 => exact absurd rfl hcipher
    | aes128Cbc | aes256Cbc => exact hlength
  have hsize : ¬(key.length ≠ 16 ∧ key.length ≠ 32) := by
    cases cipher with
    | rc4 => exact absurd rfl hcipher
    | aes128Cbc => exact fun h => h.1 hkey
    | aes256Cbc => exact fun h => h.2 hkey
  have hlengths : Cbc.checkLengths key iv = .ok () := by
    rw [Cbc.checkLengths, if_neg (not_not_intro hiv), if_neg hsize]
  constructor
  · rw [CipherHandle.cbcEncryptor, hcheck, Cbc.Encryptor.create, hlengths]
    rfl
  · rw [CipherHandle.cbcDecryptor, hcheck, Cbc.Decryptor.create, hlengths]
    rfl

/-- A codec that a live context can serve: the key suits the cipher, and the IV, if it is given, has
16 bytes. -/
structure IsServable (c : Crypt) : Prop where
  key : c.cipher.AcceptsKeyLength c.key.length
  iv : ∀ iv, c.iv = some iv → iv.length = 16

theorem beginEncode_of_live {ctx : CryptoContext} (hctx : ctx.IsLive) {c : Crypt}
    (hkey : c.cipher.AcceptsKeyLength c.key.length) :
    ∃ ctx', (c.beginEncode ctx).2 = (openEncode
      { c with session := .idle, handle := some ⟨c.cipher, c.cipher.home⟩ }
      ⟨c.cipher, c.cipher.home⟩ ctx').2 := by
  have hresolve := resolve_of_live hctx (c := { c with session := .idle }) hkey
  unfold beginEncode
  dsimp only
  revert hresolve
  rcases resolve { c with session := .idle } c.cipher ctx with ⟨ctx', result⟩
  rintro ⟨⟩
  exact ⟨ctx', rfl⟩

theorem beginDecode_of_live {ctx : CryptoContext} (hctx : ctx.IsLive) {c : Crypt}
    {parms : Option DecodeParms} {cipher : CipherKind} (hcipher : c.decodeCipher parms = .ok cipher)
    (hkey : cipher.AcceptsKeyLength c.key.length) :
    (c.beginDecode parms ctx).2 = openDecode
      { c with session := .idle, handle := some ⟨cipher, cipher.home⟩ }
      ⟨cipher, cipher.home⟩ := by
  have hresolve := resolve_of_live hctx (c := { c with session := .idle }) hkey
  have hsame : decodeCipher { c with session := .idle } parms = .ok cipher := hcipher
  unfold beginDecode
  dsimp only
  rw [hsame]
  dsimp only
  revert hresolve
  rcases resolve { c with session := .idle } cipher ctx with ⟨ctx', result⟩
  rintro ⟨⟩
  rfl

theorem home_of_ne_rc4 {cipher : CipherKind} (h : cipher ≠ .rc4) : cipher.home = .default := by
  cases cipher with
  | rc4 => exact absurd rfl h
  | aes128Cbc | aes256Cbc => rfl

/-- What an encode session makes of the data, its beginning included. -/
def encodes (c : Crypt) (ctx : CryptoContext) (data : Bytes) : Option Bytes :=
  (c.beginEncode ctx).2.output?.bind fun out =>
    (encoded (c.beginEncode ctx).2.state data).map (out ++ ·)

/-- What a decode session makes of the data, its beginning included. -/
def decodes (c : Crypt) (parms : Option DecodeParms) (ctx : CryptoContext) (data : Bytes) :
    Option Bytes :=
  (c.beginDecode parms ctx).2.output?.bind fun out =>
    (decoded (c.beginDecode parms ctx).2.state data).map (out ++ ·)

/-- Encoding under RC4 adds the keystream of the key. -/
theorem encodes_rc4 {ctx : CryptoContext} (hctx : ctx.IsLive) {c : Crypt} (hrc4 : c.cipher = .rc4)
    (hkey : CipherKind.rc4.AcceptsKeyLength c.key.length) (data : Bytes) :
    c.encodes ctx data = some ((Rc4.scheduled c.key).mask data) := by
  obtain ⟨ctx', hbegin⟩ := beginEncode_of_live hctx (c := c) (by rwa [hrc4])
  rw [encodes, hbegin, hrc4]
  simp [openEncode, CipherKind.home, rc4_eq hkey, encoded]

/-- Decoding under RC4 adds it as well. -/
theorem decodes_rc4 {ctx : CryptoContext} (hctx : ctx.IsLive) {c : Crypt}
    {parms : Option DecodeParms} (hparms : c.decodeCipher parms = .ok .rc4)
    (hkey : CipherKind.rc4.AcceptsKeyLength c.key.length) (data : Bytes) :
    c.decodes parms ctx data = some ((Rc4.scheduled c.key).mask data) := by
  rw [decodes, beginDecode_of_live hctx hparms hkey]
  simp [openDecode, CipherKind.home, rc4_eq hkey, decoded]

theorem decodes_encodes_rc4 {ctx ctx' : CryptoContext} (hctx : ctx.IsLive) (hctx' : ctx'.IsLive)
    {c c' : Crypt} {parms : Option DecodeParms} (hrc4 : c.cipher = .rc4)
    (hkey : CipherKind.rc4.AcceptsKeyLength c.key.length) (hsame : c'.key = c.key)
    (hparms : c'.decodeCipher parms = .ok .rc4) (data : Bytes) :
    ∃ out, c.encodes ctx data = some out ∧ c'.decodes parms ctx' out = some data := by
  have hkey' : CipherKind.rc4.AcceptsKeyLength c'.key.length := by rwa [hsame]
  refine ⟨_, encodes_rc4 hctx hrc4 hkey data, ?_⟩
  rw [decodes_rc4 hctx' hparms hkey', hsame, Rc4.mask_mask]

/-- An AES session opens with an IV of 16 bytes, the codec's own or a drawn one. -/
theorem beginEncode_aes {ctx : CryptoContext} (hctx : ctx.IsLive) {c : Crypt} (hc : c.IsServable)
    (haes : c.cipher ≠ .rc4) : ∃ s iv, iv.length = 16 ∧ (∀ own, c.iv = some own → own = iv) ∧
      (c.beginEncode ctx).2 = .write s iv ∧
      s.session = .aesEncrypt ⟨8 * c.key.length, .ofKey c.key, .ofBytes iv, []⟩ := by
  obtain ⟨ctx₁, hbegin⟩ := beginEncode_of_live hctx hc.key
  obtain ⟨iv, hiv, hlength⟩ : ∃ iv, (c.iv = some iv ∨ c.iv = none ∧ ctx₁.drawIv.2 = iv) ∧
      iv.length = 16 := by
    cases hown : c.iv with
    | none => exact ⟨_, .inr ⟨rfl, rfl⟩, ctx₁.length_drawIv⟩
    | some iv => exact ⟨iv, .inl rfl, hc.iv iv hown⟩
  obtain ⟨hencryptor, -⟩ := cbc_eq haes hc.key hlength
  rw [hbegin, home_of_ne_rc4 haes]
  refine ⟨{ c with
    session := .aesEncrypt ⟨8 * c.key.length, .ofKey c.key, .ofBytes iv, []⟩
    handle := some ⟨c.cipher, .default⟩ }, iv, hlength, ?_, ?_, rfl⟩
  · intro own hown
    rcases hiv with hsome | ⟨hnone, -⟩
    · exact Option.some.inj (hown.symm.trans hsome)
    · rw [hnone] at hown
      cases hown
  cases hkind : c.cipher with
  | rc4 => exact absurd hkind haes
  | aes128Cbc | aes256Cbc =>
    rw [hkind] at hencryptor
    rcases hiv with hown | ⟨hown, hdraw⟩
    · simp only [openEncode, hown, hencryptor]
    · simp only [openEncode, hown, hdraw, hencryptor]

/-- The IV is still to come when an AES session opens for decoding. -/
theorem beginDecode_aes {ctx : CryptoContext} (hctx : ctx.IsLive) {c : Crypt}
    {parms : Option DecodeParms} {cipher : CipherKind} (haes : cipher ≠ .rc4)
    (hparms : c.decodeCipher parms = .ok cipher) (hkey : cipher.AcceptsKeyLength c.key.length) :
    ∃ s, (c.beginDecode parms ctx).2 = .quiet s ∧ s.key = c.key ∧
      s.handle = some ⟨cipher, .default⟩ ∧ s.session = .aesIv [] := by
  rw [beginDecode_of_live hctx hparms hkey, home_of_ne_rc4 haes]
  refine ⟨{ c with session := .aesIv [], handle := some ⟨cipher, .default⟩ }, ?_, rfl, rfl, rfl⟩
  unfold openDecode
  cases hkind : cipher with
  | rc4 => exact absurd hkind haes
  | aes128Cbc | aes256Cbc => rfl

/-- Encoding under AES writes the IV and the ciphertext. -/
theorem encodes_aes {ctx : CryptoContext} (hctx : ctx.IsLive) {c : Crypt} (hc : c.IsServable)
    (haes : c.cipher ≠ .rc4) (data : Bytes) :
    ∃ iv, iv.length = 16 ∧ (∀ own, c.iv = some own → own = iv) ∧
      c.encodes ctx data = some (iv ++ Cbc.cipherText (.ofKey c.key) (.ofBytes iv) data) := by
  obtain ⟨s, iv, hiv, hown, hs, hsession⟩ := beginEncode_aes hctx hc haes
  have hencrypted := Cbc.encrypted_eq
    (e := ⟨8 * c.key.length, .ofKey c.key, .ofBytes iv, []⟩) (Nat.zero_lt_succ 15) data
  refine ⟨iv, hiv, hown, ?_⟩
  rw [encodes, hs, Step.output?_write, Option.bind_some, Step.state_write, encoded, hsession]
  dsimp only
  rw [hencrypted]
  rfl

/-- Decoding under AES takes the first 16 bytes as the IV and the rest as the ciphertext. -/
theorem decodes_aes {ctx : CryptoContext} (hctx : ctx.IsLive) {c : Crypt}
    {parms : Option DecodeParms} {cipher : CipherKind} (haes : cipher ≠ .rc4)
    (hparms : c.decodeCipher parms = .ok cipher) (hkey : cipher.AcceptsKeyLength c.key.length)
    (data : Bytes) : c.decodes parms ctx data = if data.length < 16 then none
      else Cbc.plainText? (.ofKey c.key) (.ofBytes (data.take 16)) (data.drop 16) := by
  obtain ⟨s, hs, hown, hbound, hsession⟩ := beginDecode_aes hctx haes hparms hkey
  have hrun : c.decodes parms ctx data = decoded s data := by
    rw [decodes, hs, Step.output?_quiet, Option.bind_some, Step.state_quiet]
    exact Option.map_id'
  have htake : (data.take 16).length < 16 ↔ data.length < 16 := by
    rw [List.length_take]
    omega
  simp only [hrun, decoded, hsession, List.length_nil, Nat.sub_zero, List.nil_append, htake]
  split
  · rfl
  · have hiv : (data.take 16).length = 16 := by
      rw [List.length_take]
      omega
    obtain ⟨-, hdecryptor⟩ := cbc_eq haes hkey hiv
    rw [decryptor, hbound, hown]
    dsimp only
    rw [hdecryptor]
    exact Cbc.decrypted_eq _ _ _ _

theorem decodes_encodes_aes {ctx ctx' : CryptoContext} (hctx : ctx.IsLive) (hctx' : ctx'.IsLive)
    {c c' : Crypt} {parms : Option DecodeParms} (hc : c.IsServable) (haes : c.cipher ≠ .rc4)
    (hsame : c'.key = c.key) (hparms : c'.decodeCipher parms = .ok c.cipher) (data : Bytes) :
    ∃ out, c.encodes ctx data = some out ∧ c'.decodes parms ctx' out = some data := by
  obtain ⟨iv, hiv, -, hout⟩ := encodes_aes hctx hc haes data
  have hkey : c.cipher.AcceptsKeyLength c'.key.length := by
    rw [hsame]
    exact hc.key
  have hlong : ¬(iv ++ Cbc.cipherText (.ofKey c.key) (.ofBytes iv) data).length < 16 := by
    rw [List.length_append]
    omega
  refine ⟨_, hout, ?_⟩
  rw [decodes_aes hctx' haes hparms hkey, if_neg hlong, hsame, List.take_left' hiv,
    List.drop_left' hiv, Cbc.plainText?_cipherText]

/-- Decoding under the same key and cipher gives back the data. -/
theorem decodes_encodes {ctx ctx' : CryptoContext} (hctx : ctx.IsLive) (hctx' : ctx'.IsLive)
    {c c' : Crypt} {parms : Option DecodeParms} (hc : c.IsServable) (hsame : c'.key = c.key)
    (hparms : c'.decodeCipher parms = .ok c.cipher) (data : Bytes) :
    ∃ out, c.encodes ctx data = some out ∧ c'.decodes parms ctx' out = some data := by
  by_cases hrc4 : c.cipher = .rc4
  · have hkey := hc.key
    rw [hrc4] at hkey hparms
    exact decodes_encodes_rc4 hctx hctx' hrc4 hkey hsame hparms data
  · exact decodes_encodes_aes hctx hctx' hc hrc4 hsame hparms data

end PdfStream.Crypt
