import PdfStream.Proofs.Codec

/-!
AES sessions as inverse bijections. A stream decodes to some data exactly if encoding these data
under its first 16 bytes as the IV gives that stream; every other stream is malformed.
-/
namespace PdfStream

namespace Cbc.Decryptor

theorem fault_update (d : Decryptor) (data : Bytes) : (d.update data).fault = none := by
  have hadd (d : Decryptor) (b : UInt8) : (d.addByte b).fault = none := by
    unfold addByte
    split <;> rfl
  have hrun := Step.fault_run hadd d data
  simp only [update, Step.joined, hrun, Step.fault_write]

/-- Only the data can be at fault in the end. -/
theorem fault_finish (d : Decryptor) {e : Error} (h : d.finish.fault = some e) :
    ∃ fault, e = .decode fault := by
  have hunpad {data : Bytes} {e : Error} (h : Padding.unpad data = .error e) :
      ∃ fault, e = .decode fault := by
    unfold Padding.unpad at h
    split at h
    · cases h
      exact ⟨_, rfl⟩
    · dsimp only at h
      split at h
      · cases h
        exact ⟨_, rfl⟩
      · split at h
        · cases h
          exact ⟨_, rfl⟩
        · cases h
  unfold finish at h
  split at h
  · cases h
    exact ⟨_, rfl⟩
  · dsimp only at h
    split at h
    next => cases h
    next hfail =>
      cases h
      exact hunpad hfail

end Cbc.Decryptor

namespace Crypt

/-- An open AES decode session: the IV is coming in and the cipher will take it, or it was taken. -/
def IsAesDecoding (c : Crypt) : Prop :=
  match c.session with
  | .aesIv got => got.length ≤ 16 ∧
      ∀ iv : Bytes, iv.length = 16 → ∃ decryptor, c.decryptor iv = .ok decryptor
  | .aesDecrypt _ => True
  | _ => False

theorem decodeBlock_of_isAesDecoding {c : Crypt} (hc : c.IsAesDecoding) (data : Bytes) :
    (c.decodeBlock data).fault = none ∧ (c.decodeBlock data).state.IsAesDecoding := by
  obtain ⟨cipher, key, own, bound, session⟩ := c
  cases session with
  | aesIv got =>
    obtain ⟨hgot, htakes⟩ := hc
    simp only [decodeBlock]
    split
    next hshort => exact ⟨rfl, Nat.le_of_lt hshort, htakes⟩
    next hlong =>
      have hwhole : (got ++ data.take (16 - got.length)).length = 16 := by
        simp only [List.length_append, List.length_take] at hlong ⊢
        omega
      obtain ⟨decryptor, hdecryptor⟩ := htakes _ hwhole
      rw [hdecryptor]
      exact ⟨decryptor.fault_update _, trivial⟩
  | aesDecrypt decryptor => exact ⟨decryptor.fault_update data, trivial⟩
  | idle | rc4 _ | aesEncrypt _ => cases hc

theorem endDecode_of_isAesDecoding {c : Crypt} (hc : c.IsAesDecoding) {e : Error}
    (h : c.endDecode.fault = some e) : ∃ fault, e = .decode fault := by
  obtain ⟨cipher, key, own, bound, session⟩ := c
  cases session with
  | aesIv got =>
    cases h
    exact ⟨_, rfl⟩
  | aesDecrypt decryptor => exact decryptor.fault_finish h
  | idle | rc4 _ | aesEncrypt _ => cases hc

section
variable {c : Crypt} {ctx : CryptoContext} {parms : Option DecodeParms}

/-- A session that does not bring out data ends with a fault of the data. -/
theorem fault_of_no_output (hctx : ctx.IsLive) (haes : c.cipher ≠ .rc4)
    (hkey : c.cipher.AcceptsKeyLength c.key.length) (hparms : c.decodeCipher parms = .ok c.cipher)
    (blocks : List Bytes) :
    (∃ fault, ((Codec.crypt c).session .decode ctx parms blocks).fault = some (.decode fault)) ↔
      ((Codec.crypt c).session .decode ctx parms blocks).output? = none := by
  obtain ⟨s, hs, hown, hbound, hsession⟩ := beginDecode_aes hctx haes hparms hkey
  have hopen : s.IsAesDecoding := by
    unfold IsAesDecoding
    rw [hsession]
    refine ⟨Nat.zero_le 16, fun iv hiv => ?_⟩
    rw [decryptor, hbound, hown]
    exact ⟨_, (cbc_eq haes hkey hiv).2⟩
  have hrun : (Codec.crypt c).session .decode ctx parms blocks =
      (Codec.coder .decode).session blocks (.crypt s) := by
    have hstart : ((Codec.crypt c).start .decode ctx parms).2 = .quiet (.crypt s) := by
      simp only [Codec.start, Codec.beginDecode, hs]
      rfl
    rw [Codec.session, hstart, Step.quiet_andThen]
  constructor
  · rintro ⟨fault, hfault⟩
    exact Step.output?_of_fault hfault
  · intro hnone
    cases hfault : ((Codec.crypt c).session .decode ctx parms blocks).fault with
    | none =>
      rw [Step.output?_of_no_fault hfault] at hnone
      cases hnone
    | some e =>
      rw [hrun] at hfault
      obtain ⟨fault, rfl⟩ := Coder.fault_session (k := Codec.coder .decode)
        (P := fun e => ∃ fault, e = .decode fault)
        (fun s => ∃ c : Crypt, s = .crypt c ∧ c.IsAesDecoding)
        (by
          rintro _ data ⟨c, rfl, hc⟩
          obtain ⟨hquiet, hkeeps⟩ := decodeBlock_of_isAesDecoding hc data
          have hblock : ((Codec.coder .decode).block data (.crypt c)).fault = none := hquiet
          refine ⟨fun e he => ?_, fun _ => ⟨_, rfl, hkeeps⟩⟩
          rw [hblock] at he
          cases he)
        (by
          rintro _ ⟨c, rfl, hc⟩ e he
          exact endDecode_of_isAesDecoding hc he)
        ⟨s, rfl, hopen⟩ blocks hfault
      exact ⟨fault, rfl⟩

end

/-- The codec with another IV of its own. -/
def withIv (c : Crypt) (iv : Bytes) : Crypt := { c with iv := some iv }

theorem isServable_withIv {c : Crypt} (hkey : c.cipher.AcceptsKeyLength c.key.length) {iv : Bytes}
    (hiv : iv.length = 16) : (c.withIv iv).IsServable := by
  refine ⟨hkey, fun own hown => ?_⟩
  cases hown
  exact hiv

theorem encodes_withIv {ctx : CryptoContext} (hctx : ctx.IsLive) {c : Crypt}
    (haes : c.cipher ≠ .rc4) (hkey : c.cipher.AcceptsKeyLength c.key.length) {iv : Bytes}
    (hiv : iv.length = 16) (data : Bytes) : (c.withIv iv).encodes ctx data =
      some (iv ++ Cbc.cipherText (.ofKey c.key) (.ofBytes iv) data) := by
  obtain ⟨iv', -, hown, hout⟩ := encodes_aes hctx (isServable_withIv hkey hiv) haes data
  cases hown iv rfl
  exact hout

section
variable {c : Crypt} {ctx : CryptoContext} {parms : Option DecodeParms}

theorem output?_decode_aes (hctx : ctx.IsLive) (haes : c.cipher ≠ .rc4)
    (hkey : c.cipher.AcceptsKeyLength c.key.length) (hparms : c.decodeCipher parms = .ok c.cipher)
    (ys : List Bytes) : ((Codec.crypt c).session .decode ctx parms ys).output? =
      if ys.flatten.length < 16 then none
      else Cbc.plainText? (.ofKey c.key) (.ofBytes (ys.flatten.take 16)) (ys.flatten.drop 16) := by
  rw [decode_makes c ctx parms ys, decodes_aes hctx haes hparms hkey]

theorem output?_encode_withIv (hctx : ctx.IsLive) (haes : c.cipher ≠ .rc4)
    (hkey : c.cipher.AcceptsKeyLength c.key.length) {iv : Bytes} (hiv : iv.length = 16)
    (xs : List Bytes) : ((Codec.crypt (c.withIv iv)).session .encode ctx none xs).output? =
      some (iv ++ Cbc.cipherText (.ofKey c.key) (.ofBytes iv) xs.flatten) := by
  rw [encode_makes (c.withIv iv) ctx none xs, encodes_withIv hctx haes hkey hiv]

end

/-- Under an AES cipher, whatever the blocks: a stream decodes to some data exactly if it has an IV
and encoding the data under that IV gives the stream. So every IV serves, the stream is the IV and
one block more than the data fill; and a stream that is too short, is no whole blocks, or ends in a
block without padding fails as malformed, and no other does. -/
theorem session_decode_iff_encode {c : Crypt} (haes : c.cipher = .aes128Cbc ∨ c.cipher = .aes256Cbc)
    (hkey : c.cipher.AcceptsKeyLength c.key.length) {parms : Option DecodeParms}
    (hparms : c.decodeCipher parms = .ok c.cipher) {ctx ctx' : CryptoContext} (hctx : ctx.IsLive)
    (hctx' : ctx'.IsLive) :
    (∀ xs ys : List Bytes,
      ((Codec.crypt c).session .decode ctx' parms ys).output? = some xs.flatten ↔
        16 ≤ ys.flatten.length ∧
        ((Codec.crypt (c.withIv (ys.flatten.take 16))).session .encode ctx none xs).output? =
          some ys.flatten) ∧
    (∀ (iv : Bytes) (xs : List Bytes), iv.length = 16 → ∃ out,
      ((Codec.crypt (c.withIv iv)).session .encode ctx none xs).output? = some out ∧
      out.length = 16 + 16 * (xs.flatten.length / 16 + 1) ∧
      ∀ ys : List Bytes, ys.flatten = out →
        ((Codec.crypt c).session .decode ctx' parms ys).output? = some xs.flatten) ∧
    ∀ ys : List Bytes,
      (∃ fault, ((Codec.crypt c).session .decode ctx' parms ys).fault = some (.decode fault)) ↔
        ys.flatten.length < 32 ∨ ys.flatten.length % 16 ≠ 0 ∨
          ¬Padding.IsPadded (Cbc.lastPlain (.ofKey c.key) ys.flatten) := by
  have hne : c.cipher ≠ .rc4 := by
    rcases haes with h | h <;> rw [h] <;> decide
  have hdecodes := output?_decode_aes hctx' hne hkey hparms
  refine ⟨fun xs ys => ?_, fun iv xs hiv => ?_, fun ys => ?_⟩
  · rw [hdecodes]
    by_cases hshort : ys.flatten.length < 16
    · rw [if_pos hshort]
      exact iff_of_false nofun fun h => Nat.not_le_of_lt hshort h.1
    have hiv : (ys.flatten.take 16).length = 16 := by
      rw [List.length_take]
      omega
    rw [if_neg hshort, Cbc.plainText?_eq_some_iff, output?_encode_withIv hctx hne hkey hiv]
    constructor
    · intro htext
      refine ⟨Nat.le_of_not_lt hshort, ?_⟩
      rw [← htext, List.take_append_drop]
    · rintro ⟨-, hout⟩
      have hsplit := List.take_append_drop 16 ys.flatten
      exact (List.append_cancel_left ((Option.some.inj hout).trans hsplit.symm)).symm
  · refine ⟨_, output?_encode_withIv hctx hne hkey hiv xs, ?_, fun ys hys => ?_⟩
    · rw [List.length_append, Cbc.length_cipherText, hiv]
    · have hlong : ¬ys.flatten.length < 16 := by
        rw [hys, List.length_append]
        omega
      rw [hdecodes, if_neg hlong, hys, List.take_left' hiv, List.drop_left' hiv,
        Cbc.plainText?_cipherText]
  · rw [fault_of_no_output hctx' hne hkey hparms, hdecodes]
    by_cases hshort : ys.flatten.length < 16
    · rw [if_pos hshort]
      exact iff_of_true rfl (.inl (by omega))
    have hiv : (ys.flatten.take 16).length = 16 := by
      rw [List.length_take]
      omega
    have hrest : (ys.flatten.drop 16).length = ys.flatten.length - 16 := List.length_drop
    have hless : (ys.flatten.drop 16).length < 16 ↔ ys.flatten.length < 32 := by omega
    have hmod : (ys.flatten.drop 16).length % 16 = ys.flatten.length % 16 := by omega
    rw [if_neg hshort, Cbc.plainText?_eq_none_iff _ hiv, List.take_append_drop, hless, hmod]

theorem session_decode_iff_encode_256 :
    let c : Crypt := { cipher := .aes256Cbc, key := List.replicate 32 7 }
    c.cipher.AcceptsKeyLength c.key.length ∧
      ∃ fault, ((Codec.crypt c).session .decode {} none [[1, 2], List.replicate 30 0, [3]]).fault =
        some (.decode fault) := by
  intro c
  have hkey : c.cipher.AcceptsKeyLength c.key.length := by decide
  have hparms : c.decodeCipher none = .ok c.cipher := rfl
  have hctx : ({} : CryptoContext).IsLive := rfl
  obtain ⟨-, -, hfault⟩ := session_decode_iff_encode (.inr rfl) hkey hparms hctx hctx
  exact ⟨hkey, (hfault _).2 (.inr (.inl (by decide)))⟩

end Crypt
end PdfStream
