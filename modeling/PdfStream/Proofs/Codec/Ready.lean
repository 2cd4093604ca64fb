import PdfStream.Proofs.Codec.Faults
import PdfStream.Proofs.Crypt.Inverse

/-!
What a start provides. After one that went well a codec holds all that the session will ask for: its
encoder or reader, or the cipher under a key that suits it. From there on encoding cannot fail, and
decoding fails only for its data, whatever becomes of the crypto context.
-/
namespace PdfStream

/-- An error that a session in this direction may still meet: none while encoding, only those of the
data while decoding. -/
def Direction.Admits (direction : Direction) (e : Error) : Prop :=
  direction = .decode ∧ e.IsDecode

theorem Direction.decode_admits (e : Error) (h : e.IsDecode) : Direction.decode.Admits e := ⟨rfl, h⟩

/-- An error by which a codec reports that it was driven out of order, or that parts of the program
do not fit together. -/
def Error.IsInternal : Error → Prop
  | .usage (.lzwNotStarted _) | .usage (.flateNotStarted _) | .usage (.cryptNotStarted _)
  | .usage .cryptUnbound | .usage (.handleMismatch _ _) | .cryptoEngine (.notImplemented _ _)
  | .configuration (.rc4KeyLength _) | .configuration (.aesKeyLength _)
  | .configuration (.aesIvLength _) => True
  | _ => False

theorem Error.IsSetup.not_isInternal {e : Error} (h : e.IsSetup) : ¬e.IsInternal := by
  intro hinternal
  unfold IsInternal at hinternal
  split at hinternal
  all_goals first | exact h | exact hinternal

theorem Direction.Admits.not_isInternal {direction : Direction} {e : Error}
    (h : direction.Admits e) : ¬e.IsInternal := by
  obtain ⟨-, fault, rfl⟩ := h
  exact id

namespace Crypt
variable {c : Crypt}

/-- An open session. The IV that comes in while decoding will be of use. -/
def IsReady (direction : Direction) (c : Crypt) : Prop :=
  match c.session, direction with
  | .rc4 _, _ | .aesEncrypt _, .encode => True
  | .aesIv _, .decode | .aesDecrypt _, .decode => c.IsAesDecoding
  | _, _ => False

theorem isReady_openEncode (c : Crypt) (handle : CipherHandle) (ctx : CryptoContext)
    (h : (c.openEncode handle ctx).2.fault = none) :
    (c.openEncode handle ctx).2.state.IsReady .encode := by
  revert h
  unfold openEncode
  cases handle.kind with
  | rc4 =>
    dsimp only
    split
    · exact fun _ => trivial
    · exact nofun
  | aes128Cbc | aes256Cbc =>
    dsimp only
    split
    · exact fun _ => trivial
    · exact nofun

theorem isReady_beginEncode (c : Crypt) (ctx : CryptoContext)
    (h : (c.beginEncode ctx).2.fault = none) : (c.beginEncode ctx).2.state.IsReady .encode := by
  revert h
  unfold beginEncode
  dsimp only
  split
  · exact nofun
  · exact isReady_openEncode _ _ _

/-- A cipher with its own provider and a key that it takes opens any session. -/
theorem fault_openEncode {cipher : CipherKind} (hkey : cipher.AcceptsKeyLength c.key.length)
    (hiv : ∀ iv, c.iv = some iv → iv.length = 16) (ctx : CryptoContext) :
    (c.openEncode ⟨cipher, cipher.home⟩ ctx).2.fault = none := by
  cases cipher with
  | rc4 =>
    simp [openEncode, CipherKind.home, rc4_eq hkey]
  | aes128Cbc | aes256Cbc =>
    cases hown : c.iv with
    | none =>
      have hbuilt := (cbc_eq (by decide) hkey ctx.length_drawIv).1
      simp [openEncode, CipherKind.home, hown, hbuilt]
    | some iv =>
      have hbuilt := (cbc_eq (by decide) hkey (hiv iv hown)).1
      simp [openEncode, CipherKind.home, hown, hbuilt]

theorem isSetup_beginEncode (hiv : ∀ iv, c.iv = some iv → iv.length = 16) (ctx : CryptoContext) :
    (c.beginEncode ctx).2.FaultsOnly Error.IsSetup := by
  have hresolve := errsOnly_resolve { c with session := .idle } c.cipher ctx
  unfold beginEncode
  revert hresolve
  dsimp only
  rcases h : resolve { c with session := .idle } c.cipher ctx with ⟨ctx', e | handle⟩
  · exact fun hresolve => Step.faultsOnly_stop (hresolve e rfl) _
  · intro _
    obtain ⟨rfl, hkey⟩ := eq_of_resolve (congrArg Prod.snd h)
    exact .of_no_fault (fault_openEncode (c := { c with
      session := .idle
      handle := some ⟨c.cipher, c.cipher.home⟩ }) hkey hiv ctx')

theorem faultsOnly_encodeBlock_of_isReady {P : Error → Prop} (h : c.IsReady .encode)
    (data : Bytes) :
    (c.encodeBlock data).FaultsOnly P ∧ (c.encodeBlock data).state.IsReady .encode := by
  obtain ⟨cipher, key, iv, handle, session⟩ := c
  cases session with
  | rc4 stream => exact ⟨.of_no_fault rfl, trivial⟩
  | aesEncrypt encryptor => exact ⟨(encryptor.faultsOnly_update data).map _, trivial⟩
  | idle | aesIv | aesDecrypt => cases h

theorem faultsOnly_endEncode_of_isReady {P : Error → Prop} (h : c.IsReady .encode) :
    c.endEncode.FaultsOnly P := by
  obtain ⟨cipher, key, iv, handle, session⟩ := c
  cases session with
  | rc4 | aesEncrypt => exact .of_no_fault rfl
  | idle | aesIv | aesDecrypt => cases h

/-- The cipher that the parameters ask for, from its own provider, takes the key. -/
theorem openDecode_spec {cipher : CipherKind} (hkey : cipher.AcceptsKeyLength c.key.length)
    (hbound : c.handle = some ⟨cipher, cipher.home⟩) :
    (c.openDecode ⟨cipher, cipher.home⟩).fault = none ∧
      (c.openDecode ⟨cipher, cipher.home⟩).state.IsReady .decode := by
  have htakes (haes : cipher ≠ .rc4) : IsAesDecoding { c with session := .aesIv [] } := by
    refine ⟨Nat.zero_le 16, ?_⟩
    intro iv hiv
    have hdecryptor : decryptor { c with session := .aesIv [] } iv =
        CipherHandle.cbcDecryptor ⟨cipher, cipher.home⟩ c.key iv := by
      rw [decryptor, hbound]
    rw [hdecryptor, home_of_ne_rc4 haes]
    exact ⟨_, (cbc_eq haes hkey hiv).2⟩
  cases cipher with
  | rc4 =>
    simp [openDecode, CipherKind.home, rc4_eq hkey, IsReady]
  | aes128Cbc | aes256Cbc => exact ⟨rfl, htakes (by decide)⟩

theorem beginDecode_spec (c : Crypt) (parms : Option DecodeParms) (ctx : CryptoContext) :
    (c.beginDecode parms ctx).2.FaultsOnly Error.IsSetup ∧
      ((c.beginDecode parms ctx).2.fault = none →
        (c.beginDecode parms ctx).2.state.IsReady .decode) := by
  unfold beginDecode
  dsimp only
  split
  next e he => exact ⟨Step.faultsOnly_stop (errsOnly_decodeCipher _ parms e he) _, nofun⟩
  next cipher _ =>
    have hresolve := errsOnly_resolve { c with session := .idle } cipher ctx
    revert hresolve
    rcases h : resolve { c with session := .idle } cipher ctx with ⟨ctx', e | handle⟩
    · exact fun hresolve => ⟨Step.faultsOnly_stop (hresolve e rfl) _, nofun⟩
    · intro _
      obtain ⟨rfl, hkey⟩ := eq_of_resolve (congrArg Prod.snd h)
      obtain ⟨hfault, hready⟩ := openDecode_spec (c := { c with
        session := .idle
        handle := some ⟨cipher, cipher.home⟩ }) hkey rfl
      exact ⟨.of_no_fault hfault, fun _ => hready⟩

theorem isReady_of_isAesDecoding (h : c.IsAesDecoding) : c.IsReady .decode := by
  obtain ⟨cipher, key, iv, handle, session⟩ := c
  cases session with
  | aesIv | aesDecrypt => exact h
  | idle | rc4 | aesEncrypt => cases h

theorem faultsOnly_decodeBlock_of_isReady {P : Error → Prop} (h : c.IsReady .decode)
    (data : Bytes) :
    (c.decodeBlock data).FaultsOnly P ∧ (c.decodeBlock data).state.IsReady .decode := by
  have haes (h : c.IsAesDecoding) :
      (c.decodeBlock data).FaultsOnly P ∧ (c.decodeBlock data).state.IsReady .decode := by
    obtain ⟨hfault, hkeeps⟩ := decodeBlock_of_isAesDecoding h data
    exact ⟨.of_no_fault hfault, isReady_of_isAesDecoding hkeeps⟩
  obtain ⟨cipher, key, iv, handle, session⟩ := c
  cases session with
  | rc4 stream => exact ⟨.of_no_fault rfl, trivial⟩
  | aesIv | aesDecrypt => exact haes h
  | idle | aesEncrypt => cases h

theorem faultsOnly_endDecode_of_isReady (h : c.IsReady .decode) :
    c.endDecode.FaultsOnly Error.IsDecode := by
  have haes (h : c.IsAesDecoding) : c.endDecode.FaultsOnly Error.IsDecode :=
    fun _ => endDecode_of_isAesDecoding h
  obtain ⟨cipher, key, iv, handle, session⟩ := c
  cases session with
  | rc4 => exact .of_no_fault rfl
  | aesIv | aesDecrypt => exact haes h
  | idle | aesEncrypt => cases h

end Crypt

theorem Lzw.isSome_reader_decodeBlock {c : Lzw} (h : c.reader.isSome) (data : Bytes) :
    (c.decodeBlock data).state.reader.isSome := by
  unfold decodeBlock
  split
  · exact h
  · split
    · exact h
    · exact Step.andThen_keeps (P := fun c : Lzw => c.reader.isSome) rfl fun _ => id

theorem Flate.isSome_reader_decodeBlock {c : Flate} (h : c.reader.isSome) (data : Bytes) :
    (c.decodeBlock data).state.reader.isSome := by
  unfold decodeBlock
  split
  · exact h
  · split
    · exact h
    · exact Step.andThen_keeps (P := fun c : Flate => c.reader.isSome) rfl fun _ => id

namespace Codec
variable {c : Codec}

/-- The codec holds what the rest of a session in this direction works with. -/
def IsReady (direction : Direction) : Codec → Prop
  | .runLength _ | .ascii85 _ | .asciiHex _ => True
  | .lzw c => match direction with
    | .encode => c.encoder.isSome
    | .decode => c.reader.isSome
  | .flate c => match direction with
    | .encode => c.encoder.isSome
    | .decode => c.reader.isSome
  | .crypt c => c.IsReady direction

/-- If a codec has an IV of its own, that has 16 bytes. -/
def HasWholeIv : Codec → Prop
  | .crypt c => ∀ iv, c.iv = some iv → iv.length = 16
  | .runLength _ | .lzw _ | .ascii85 _ | .asciiHex _ | .flate _ => True

theorem HasWholeIv.of_fresh {d : Codec} (h : c.HasWholeIv) (hsame : d.fresh = c.fresh) :
    d.HasWholeIv := by
  cases d with
  | crypt d =>
    cases c with
    | crypt c =>
      have hfresh : d.fresh = c.fresh := Codec.crypt.inj hsame
      have hiv := congrArg Crypt.iv hfresh
      intro iv hown
      exact h iv (hiv.symm.trans hown)
    | runLength | lzw | ascii85 | asciiHex | flate => cases hsame
  | runLength | lzw | ascii85 | asciiHex | flate => trivial

theorem isReady_start (c : Codec) (direction : Direction) (ctx : CryptoContext)
    (parms : Option DecodeParms) (h : (c.start direction ctx parms).2.fault = none) :
    (c.start direction ctx parms).2.state.IsReady direction := by
  cases direction with
  | encode =>
    cases c with
    | crypt c => exact c.isReady_beginEncode ctx h
    | runLength | ascii85 | asciiHex => trivial
    | lzw | flate => rfl
  | decode =>
    cases c with
    | crypt c => exact (c.beginDecode_spec parms ctx).2 h
    | lzw c =>
      revert h
      simp only [start, beginDecode, Lzw.beginDecode]
      cases Lzw.settings parms with
      | error e =>
        intro h
        cases h
      | ok settings => exact fun _ => rfl
    | flate c =>
      revert h
      simp only [start, beginDecode, Flate.beginDecode]
      cases Predictor.ofParms parms with
      | error e =>
        intro h
        cases h
      | ok predictor => exact fun _ => rfl
    | runLength | ascii85 | asciiHex => trivial

/-- A start can only be at fault for its parameters, the key or the context. -/
theorem isSetup_start (hiv : c.HasWholeIv) (direction : Direction) (ctx : CryptoContext)
    (parms : Option DecodeParms) :
    (c.start direction ctx parms).2.FaultsOnly Error.IsSetup := by
  cases direction with
  | encode =>
    cases c with
    | crypt c => exact (Crypt.isSetup_beginEncode hiv ctx).map _
    | runLength | lzw | ascii85 | asciiHex | flate => exact .of_no_fault rfl
  | decode =>
    cases c with
    | lzw c => exact (c.faultsOnly_beginDecode parms).map _
    | flate c => exact (c.faultsOnly_beginDecode parms).map _
    | crypt c => exact (c.beginDecode_spec parms ctx).1.map _
    | runLength | ascii85 | asciiHex => exact .of_no_fault rfl

theorem faultsOnly_block_of_isReady {direction : Direction} (h : c.IsReady direction)
    (data : Bytes) : (c.block direction data).FaultsOnly direction.Admits := by
  cases direction with
  | encode =>
    cases c with
    | runLength c => exact (c.faultsOnly_encodeBlock data).map _
    | lzw c =>
      refine (c.faultsOnly_encodeBlock data fun hnone => ?_).map _
      exact absurd hnone (Option.isSome_iff_ne_none.1 h)
    | ascii85 c => exact (c.faultsOnly_encodeBlock data).map _
    | asciiHex c => exact .of_no_fault rfl
    | flate c =>
      refine (c.faultsOnly_encodeBlock data fun hnone => ?_).map _
      exact absurd hnone (Option.isSome_iff_ne_none.1 h)
    | crypt c => exact (Crypt.faultsOnly_encodeBlock_of_isReady h data).1.map _
  | decode =>
    cases c with
    | runLength c => exact (c.faultsOnly_decodeBlock data).map _
    | lzw c =>
      refine (Lzw.faultsOnly_decodeBlock Direction.decode_admits c data fun hnone => ?_).map _
      exact absurd hnone (Option.isSome_iff_ne_none.1 h)
    | ascii85 c =>
      have hread := Step.FaultsOnly.run Ascii85.faultsOnly_readByte c data
      exact (hread.mono Direction.decode_admits).map _
    | asciiHex c => exact ((c.faultsOnly_decodeBlock data).mono Direction.decode_admits).map _
    | flate c =>
      refine (Flate.faultsOnly_decodeBlock Direction.decode_admits c data fun hnone => ?_).map _
      exact absurd hnone (Option.isSome_iff_ne_none.1 h)
    | crypt c => exact (Crypt.faultsOnly_decodeBlock_of_isReady h data).1.map _

theorem faultsOnly_finish_of_isReady {direction : Direction} (h : c.IsReady direction) :
    (c.finish direction).FaultsOnly direction.Admits := by
  cases direction with
  | encode =>
    cases c with
    | runLength c => exact c.faultsOnly_endEncode.map _
    | lzw c =>
      refine (c.faultsOnly_endEncode fun hnone => ?_).map _
      exact absurd hnone (Option.isSome_iff_ne_none.1 h)
    | ascii85 c => exact c.faultsOnly_endEncode.map _
    | asciiHex c => exact .of_no_fault rfl
    | flate c =>
      refine (c.faultsOnly_endEncode fun hnone => ?_).map _
      exact absurd hnone (Option.isSome_iff_ne_none.1 h)
    | crypt c => exact (Crypt.faultsOnly_endEncode_of_isReady h).map _
  | decode =>
    cases c with
    | runLength c => exact (c.faultsOnly_endDecode.mono Direction.decode_admits).map _
    | lzw c =>
      refine (Lzw.faultsOnly_endDecode Direction.decode_admits c fun hnone => ?_).map _
      exact absurd hnone (Option.isSome_iff_ne_none.1 h)
    | ascii85 c => exact (c.faultsOnly_endDecode.mono Direction.decode_admits).map _
    | asciiHex c => exact c.faultsOnly_endDecode.map _
    | flate c =>
      refine (Flate.faultsOnly_endDecode Direction.decode_admits c fun hnone => ?_).map _
      exact absurd hnone (Option.isSome_iff_ne_none.1 h)
    | crypt c =>
      exact ((Crypt.faultsOnly_endDecode_of_isReady h).mono Direction.decode_admits).map _

theorem isReady_block {direction : Direction} (h : c.IsReady direction) (data : Bytes) :
    (c.block direction data).state.IsReady direction := by
  cases direction with
  | encode =>
    cases c with
    | runLength | ascii85 | asciiHex => trivial
    | lzw c =>
      obtain ⟨early, encoder, reader, predictor, finished⟩ := c
      obtain ⟨encoder, rfl⟩ := Option.isSome_iff_exists.1 h
      rfl
    | flate c =>
      obtain ⟨level, encoder, reader, predictor, finished⟩ := c
      obtain ⟨encoder, rfl⟩ := Option.isSome_iff_exists.1 h
      by_cases hdata : data = []
      · simp [block, encodeBlock, Flate.encodeBlock, hdata, IsReady]
      · simp [block, encodeBlock, Flate.encodeBlock, hdata, IsReady]
    | crypt c => exact (Crypt.faultsOnly_encodeBlock_of_isReady h data (P := fun _ => True)).2
  | decode =>
    cases c with
    | runLength | ascii85 | asciiHex => trivial
    | lzw c => exact Lzw.isSome_reader_decodeBlock h data
    | flate c => exact Flate.isSome_reader_decodeBlock h data
    | crypt c => exact (Crypt.faultsOnly_decodeBlock_of_isReady h data (P := fun _ => True)).2

end Codec
end PdfStream
