import PdfStream.Codec
import PdfStream.Proofs.Checked.Step
import PdfStream.Proofs.Cipher.Cbc

/-!
The checked steps of the ciphers and of the Crypt filter. Block ciphers take whole blocks of 16
bytes only, and the key schedule of RC4 takes a key byte for every place of the permutation.
-/
namespace PdfStream

/-- What is made behind a check is made without it, too. -/
theorem ok_of_check {α : Type} {check : Except Error Unit} {made : Except Error α} {a : α}
    (h : (check >>= fun _ => made) = .ok a) : made = .ok a := by
  cases check with
  | error e => cases h
  | ok _ => exact h

namespace Rc4

def stir? (key : Array UInt8) (s : Rc4) : Option Rc4 :=
  (key[s.i.toNat % key.size]?).map fun k =>
    let j := s.j + s.perm.get s.i.toFin + k
    ⟨swap s.perm s.i j, s.i + 1, j⟩

def ofKey? (key : Bytes) : Option (Except Error Rc4) :=
  if key.length = 0 ∨ 256 < key.length then
    some (.error (.configuration (.rc4KeyLength key.length)))
  else
    (Nat.repeat (· >>= stir? key.toArray) 256 (some ⟨identity, 0, 0⟩)).map fun s =>
      .ok ⟨s.perm, 0, 0⟩

theorem stir?_eq {key : Array UInt8} (h : 0 < key.size) (s : Rc4) :
    stir? key s = some (stir key s) := by
  have hplace : s.i.toNat % key.size < key.size := Nat.mod_lt _ h
  simp [stir?, stir, hplace, Array.getD]

/-- By induction on the rounds. -/
theorem repeat_stir? {key : Array UInt8} (h : 0 < key.size) (rounds : Nat) (s : Rc4) :
    Nat.repeat (· >>= stir? key) rounds (some s) = some (Nat.repeat (stir key) rounds s) := by
  induction rounds with
  | zero => rfl
  | succ rounds ih =>
    show (Nat.repeat (· >>= stir? key) rounds (some s) >>= stir? key) = _
    rw [ih]
    exact stir?_eq h _

theorem ofKey?_eq (key : Bytes) : ofKey? key = some (ofKey key) := by
  unfold ofKey? ofKey
  split
  · rfl
  next hkey =>
    have hpos : 0 < key.toArray.size := by
      rw [List.size_toArray]
      omega
    rw [repeat_stir? hpos, Option.map_some]

end Rc4

namespace Padding

def pad? (data : Bytes) : Option Bytes := do
  let count ← Checked.sub 16 (data.length % 16)
  let last ← Checked.byte count
  return data ++ List.replicate count last

def unpad? (data : Bytes) : Option (Except Error Bytes) :=
  match data.getLast? with
  | none => some (.error (.decode .aesEmpty))
  | some last =>
    let count := last.toNat
    if count = 0 ∨ 16 < count ∨ data.length < count then
      some (.error (.decode (.aesPadLength count)))
    else do
      let length ← Checked.sub data.length count
      if (← Checked.back length data).any (· ≠ last) then
        return .error (.decode .aesPadBytes)
      else return .ok (← Checked.front length data)

theorem pad?_eq (data : Bytes) : pad? data = some (pad data) := by
  have hrest : data.length % 16 ≤ 16 := by omega
  have hfits : 16 - data.length % 16 < 256 := by omega
  simp [pad?, pad, Checked.sub_eq hrest, Checked.byte_eq hfits]

/-- The length that the last byte names is checked before anything is cut by it. -/
theorem unpad?_eq (data : Bytes) : unpad? data = some (unpad data) := by
  unfold unpad? unpad
  cases data.getLast? with
  | none => rfl
  | some last =>
    dsimp only
    by_cases hcount : last.toNat = 0 ∨ 16 < last.toNat ∨ data.length < last.toNat
    · rw [if_pos hcount, if_pos hcount]
    · have hlong : last.toNat ≤ data.length := by omega
      have hcut : data.length - last.toNat ≤ data.length := Nat.sub_le _ _
      rw [if_neg hcount, if_neg hcount]
      simp only [Checked.sub_eq hlong, Checked.back_eq hcut, Checked.front_eq hcut,
        Option.bind_eq_bind, Option.bind_some]
      split
      · rfl
      · rfl

end Padding

namespace Cbc

namespace Encryptor

/-- The cipher takes an IV of one block. -/
def create? (key iv : Bytes) : Option (Except Error Encryptor) :=
  match checkLengths key iv with
  | .error e => some (.error e)
  | .ok () =>
    (Checked.exactly 16 iv).map fun iv => .ok ⟨8 * key.length, .ofKey key, .ofBytes iv, []⟩

def encryptBlock? (e : Encryptor) (block : Bytes) : Option (Step Encryptor) :=
  (Checked.exactly 16 block).map e.encryptBlock

def addByte? (e : Encryptor) (b : UInt8) : Option (Step Encryptor) :=
  let pending := e.pending ++ [b]
  if pending.length = 16 then encryptBlock? e pending
  else some (.quiet { e with pending := pending })

def update? (e : Encryptor) (data : Bytes) : Option (Step Encryptor) :=
  (Step.run? addByte? e data).map Step.joined

def finish? (e : Encryptor) : Option (Step Encryptor) :=
  Padding.pad? e.pending >>= e.encryptBlock?

end Encryptor

namespace Decryptor

def create? (key iv : Bytes) : Option (Except Error Decryptor) :=
  match checkLengths key iv with
  | .error e => some (.error e)
  | .ok () =>
    (Checked.exactly 16 iv).map fun iv => .ok ⟨8 * key.length, .ofKey key, .ofBytes iv, []⟩

def decryptBlock? (d : Decryptor) (block : Bytes) : Option (Bytes × Decryptor) :=
  (Checked.exactly 16 block).map d.decryptBlock

def addByte? (d : Decryptor) (b : UInt8) : Option (Step Decryptor) :=
  if d.pending.length = 16 then
    (d.decryptBlock? d.pending).map fun (plain, d) => .write { d with pending := [b] } plain
  else some (.quiet { d with pending := d.pending ++ [b] })

def update? (d : Decryptor) (data : Bytes) : Option (Step Decryptor) :=
  (Step.run? addByte? d data).map Step.joined

def finish? (d : Decryptor) : Option (Step Decryptor) :=
  if d.pending.length ≠ 16 then
    some (.stop { d with pending := [] } (.decode (.aesPartialBlock (d.pending.length % 16))))
  else do
    let (plain, d) ← d.decryptBlock? d.pending
    match ← Padding.unpad? plain with
    | .ok data => return .write d data
    | .error e => return .stop d e

end Decryptor

theorem length_of_checkLengths {key iv : Bytes} (h : checkLengths key iv = .ok ()) :
    iv.length = 16 := by
  unfold checkLengths at h
  split at h
  · cases h
  next hiv => exact Decidable.not_not.1 hiv

namespace Encryptor

/-- Less than a block is held. -/
def IsShort (e : Encryptor) : Prop := e.pending.length < 16

theorem create?_eq (key iv : Bytes) : create? key iv = some (create key iv) := by
  cases h : checkLengths key iv with
  | error e => simp [create?, create, h]
  | ok _ => simp [create?, create, h, Checked.exactly_eq (length_of_checkLengths h)]

theorem isShort_of_create {key iv : Bytes} {e : Encryptor} (h : create key iv = .ok e) :
    e.IsShort := by
  cases ok_of_check h
  exact Nat.succ_pos 15

theorem inRange_encryptBlock (e : Encryptor) {block : Bytes} (h : block.length = 16) :
    Step.InRange IsShort (e.encryptBlock? block) (e.encryptBlock block) := by
  rw [encryptBlock?, Checked.exactly_eq h]
  exact ⟨rfl, fun _ => Nat.succ_pos 15⟩

theorem inRange_addByte {e : Encryptor} (h : e.IsShort) (b : UInt8) :
    Step.InRange IsShort (addByte? e b) (e.addByte b) := by
  unfold addByte? addByte
  dsimp only
  split
  next hwhole => exact e.inRange_encryptBlock hwhole
  next hshort =>
    apply Step.inRange_quiet
    rw [List.length_append, List.length_singleton] at hshort
    show (e.pending ++ [b]).length < 16
    rw [List.length_append, List.length_singleton]
    exact Nat.lt_of_le_of_ne h hshort

theorem inRange_update {e : Encryptor} (h : e.IsShort) (data : Bytes) :
    Step.InRange IsShort (update? e data) (e.update data) :=
  (Step.InRange.run (fun _ b hs => inRange_addByte hs b) h data).joined

theorem inRange_finish {e : Encryptor} (h : e.IsShort) :
    Step.InRange IsShort (finish? e) e.finish := by
  rw [finish?, Padding.pad?_eq]
  exact e.inRange_encryptBlock (Padding.length_pad h)

end Encryptor

namespace Decryptor

/-- At most a block is held. -/
def IsShort (d : Decryptor) : Prop := d.pending.length ≤ 16

theorem create?_eq (key iv : Bytes) : create? key iv = some (create key iv) := by
  cases h : checkLengths key iv with
  | error e => simp [create?, create, h]
  | ok _ => simp [create?, create, h, Checked.exactly_eq (length_of_checkLengths h)]

theorem isShort_of_create {key iv : Bytes} {d : Decryptor} (h : create key iv = .ok d) :
    d.IsShort := by
  cases ok_of_check h
  exact Nat.zero_le 16

theorem inRange_addByte {d : Decryptor} (h : d.IsShort) (b : UInt8) :
    Step.InRange IsShort (addByte? d b) (d.addByte b) := by
  unfold addByte? addByte
  split
  next hwhole =>
    rw [decryptBlock?, Checked.exactly_eq hwhole]
    exact ⟨rfl, fun _ => Nat.succ_le_succ (Nat.zero_le 15)⟩
  next hshort =>
    apply Step.inRange_quiet
    show (d.pending ++ [b]).length ≤ 16
    rw [List.length_append, List.length_singleton]
    exact Nat.lt_of_le_of_ne h hshort

theorem inRange_update {d : Decryptor} (h : d.IsShort) (data : Bytes) :
    Step.InRange IsShort (update? d data) (d.update data) :=
  (Step.InRange.run (fun _ b hs => inRange_addByte hs b) h data).joined

theorem finish?_eq (d : Decryptor) : finish? d = some d.finish := by
  unfold finish? finish
  split
  · rfl
  next hwhole =>
    rw [decryptBlock?, Checked.exactly_eq (Decidable.not_not.1 hwhole), Option.map_some]
    simp only [Option.bind_eq_bind, Option.bind_some, Padding.unpad?_eq]
    cases Padding.unpad (d.decryptBlock d.pending).1 with
    | ok data => rfl
    | error e => rfl

end Decryptor
end Cbc

namespace CipherHandle

def rc4? (h : CipherHandle) (key : Bytes) : Option (Except Error Rc4) :=
  match h.check .rc4 [.rc4] key with
  | .error e => some (.error e)
  | .ok () => Rc4.ofKey? key

def cbcEncryptor? (h : CipherHandle) (key iv : Bytes) : Option (Except Error Cbc.Encryptor) :=
  match h.check .aes128Cbc [.aes128Cbc, .aes256Cbc] key with
  | .error e => some (.error e)
  | .ok () => Cbc.Encryptor.create? key iv

def cbcDecryptor? (h : CipherHandle) (key iv : Bytes) : Option (Except Error Cbc.Decryptor) :=
  match h.check .aes128Cbc [.aes128Cbc, .aes256Cbc] key with
  | .error e => some (.error e)
  | .ok () => Cbc.Decryptor.create? key iv

section
variable (h : CipherHandle) (key iv : Bytes)

theorem rc4?_eq : h.rc4? key = some (h.rc4 key) := by
  unfold rc4? rc4
  cases h.check .rc4 [.rc4] key with
  | error e => rfl
  | ok _ => exact Rc4.ofKey?_eq key

theorem cbcEncryptor?_eq : h.cbcEncryptor? key iv = some (h.cbcEncryptor key iv) := by
  unfold cbcEncryptor? cbcEncryptor
  cases h.check .aes128Cbc [.aes128Cbc, .aes256Cbc] key with
  | error e => rfl
  | ok _ => exact Cbc.Encryptor.create?_eq key iv

theorem cbcDecryptor?_eq : h.cbcDecryptor? key iv = some (h.cbcDecryptor key iv) := by
  unfold cbcDecryptor? cbcDecryptor
  cases h.check .aes128Cbc [.aes128Cbc, .aes256Cbc] key with
  | error e => rfl
  | ok _ => exact Cbc.Decryptor.create?_eq key iv

variable {h key iv}

theorem isShort_of_cbcEncryptor {e : Cbc.Encryptor} (hmade : h.cbcEncryptor key iv = .ok e) :
    e.IsShort := Cbc.Encryptor.isShort_of_create (ok_of_check hmade)

theorem isShort_of_cbcDecryptor {d : Cbc.Decryptor} (hmade : h.cbcDecryptor key iv = .ok d) :
    d.IsShort := Cbc.Decryptor.isShort_of_create (ok_of_check hmade)

end
end CipherHandle

namespace Crypt

def openEncode? (c : Crypt) (handle : CipherHandle) (ctx : CryptoContext) :
    Option (CryptoContext × Step Crypt) :=
  match handle.kind with
  | .rc4 =>
    (handle.rc4? c.key).map fun
      | .ok stream => (ctx, .quiet { c with session := .rc4 stream })
      | .error e => (ctx, .stop c e)
  | .aes128Cbc | .aes256Cbc =>
    let (ctx, iv) := match c.iv with
      | some iv => (ctx, iv)
      | none => ctx.drawIv
    (handle.cbcEncryptor? c.key iv).map fun
      | .ok encryptor => (ctx, .write { c with session := .aesEncrypt encryptor } iv)
      | .error e => (ctx, .stop c e)

def beginEncode? (c : Crypt) (ctx : CryptoContext) : Option (CryptoContext × Step Crypt) :=
  let c := { c with session := .idle }
  match c.resolve c.cipher ctx with
  | (ctx, .error e) => some (ctx, .stop c e)
  | (ctx, .ok handle) => openEncode? { c with handle := some handle } handle ctx

def encodeBlock? (c : Crypt) (data : Bytes) : Option (Step Crypt) :=
  match c.session with
  | .rc4 stream =>
    let (stream, out) := stream.process data
    some (.write { c with session := .rc4 stream } out)
  | .aesEncrypt encryptor =>
    (encryptor.update? data).map (Step.map fun e => { c with session := .aesEncrypt e })
  | _ => some (c.notStarted .encode)

def endEncode? (c : Crypt) : Option (Step Crypt) :=
  let closed := { c with session := .idle }
  match c.session with
  | .rc4 _ => some (.quiet closed)
  | .aesEncrypt encryptor => encryptor.finish?.map (Step.map fun _ => closed)
  | _ => some (closed.notStarted .encode)

def openDecode? (c : Crypt) (handle : CipherHandle) : Option (Step Crypt) :=
  match handle.kind with
  | .rc4 =>
    (handle.rc4? c.key).map fun
      | .ok stream => .quiet { c with session := .rc4 stream }
      | .error e => .stop c e
  | .aes128Cbc | .aes256Cbc => some (.quiet { c with session := .aesIv [] })

def beginDecode? (c : Crypt) (parms : Option DecodeParms) (ctx : CryptoContext) :
    Option (CryptoContext × Step Crypt) :=
  let c := { c with session := .idle }
  match c.decodeCipher parms with
  | .error e => some (ctx, .stop c e)
  | .ok cipher =>
    match c.resolve cipher ctx with
    | (ctx, .error e) => some (ctx, .stop c e)
    | (ctx, .ok handle) => (openDecode? { c with handle := some handle } handle).map (ctx, ·)

def decryptor? (c : Crypt) (iv : Bytes) : Option (Except Error Cbc.Decryptor) :=
  match c.handle with
  | some handle => handle.cbcDecryptor? c.key iv
  | none => some (.error (.usage .cryptUnbound))

def decodeWith? (c : Crypt) (decryptor : Cbc.Decryptor) (data : Bytes) : Option (Step Crypt) :=
  (decryptor.update? data).map (Step.map fun d => { c with session := .aesDecrypt d })

def decodeBlock? (c : Crypt) (data : Bytes) : Option (Step Crypt) :=
  match c.session with
  | .rc4 stream =>
    let (stream, out) := stream.process data
    some (.write { c with session := .rc4 stream } out)
  | .aesIv iv => do
    let taken := min (← Checked.sub 16 iv.length) data.length
    let iv := iv ++ (← Checked.front taken data)
    let data ← Checked.back taken data
    if iv.length < 16 then return .quiet { c with session := .aesIv iv }
    else
      match ← c.decryptor? iv with
      | .error e => return .stop { c with session := .aesIv iv } e
      | .ok decryptor => c.decodeWith? decryptor data
  | .aesDecrypt decryptor => c.decodeWith? decryptor data
  | _ => some (c.notStarted .decode)

def endDecode? (c : Crypt) : Option (Step Crypt) :=
  let closed := { c with session := .idle }
  match c.session with
  | .rc4 _ => some (.quiet closed)
  | .aesIv iv => some (.stop closed (.decode (.aesPartialIv iv.length)))
  | .aesDecrypt decryptor => decryptor.finish?.map (Step.map fun _ => closed)
  | _ => some (closed.notStarted .decode)

/-- What is held of the data is short of what it is held for. -/
def InBounds (direction : Direction) (c : Crypt) : Prop :=
  match c.session, direction with
  | .aesEncrypt encryptor, .encode => encryptor.pending.length < 16
  | .aesIv iv, .decode => iv.length < 16
  | .aesDecrypt decryptor, .decode => decryptor.pending.length ≤ 16
  | _, _ => True

section
variable {c : Crypt}

theorem openEncode?_eq (c : Crypt) (handle : CipherHandle) (ctx : CryptoContext) :
    openEncode? c handle ctx = some (c.openEncode handle ctx) := by
  unfold openEncode? openEncode
  cases handle.kind with
  | rc4 => exact congrArg (Option.map _) (handle.rc4?_eq c.key)
  | aes128Cbc | aes256Cbc =>
    cases c.iv with
    | none => exact congrArg (Option.map _) (handle.cbcEncryptor?_eq c.key ctx.drawIv.2)
    | some iv => exact congrArg (Option.map _) (handle.cbcEncryptor?_eq c.key iv)

theorem beginEncode?_eq (c : Crypt) (ctx : CryptoContext) :
    beginEncode? c ctx = some (c.beginEncode ctx) := by
  unfold beginEncode? beginEncode
  dsimp only
  rcases resolve { c with session := .idle } c.cipher ctx with ⟨ctx', e | handle⟩
  · rfl
  · exact openEncode?_eq _ handle ctx'

theorem inBounds_openEncode (c : Crypt) (handle : CipherHandle) (ctx : CryptoContext)
    (h : (c.openEncode handle ctx).2.fault = none) :
    (c.openEncode handle ctx).2.state.InBounds .encode := by
  revert h
  unfold openEncode
  cases handle.kind with
  | rc4 =>
    dsimp only
    split
    · exact fun _ => trivial
    · exact nofun
  | aes128Cbc | aes256Cbc =>
    dsimp only
    split
    next hmade => exact fun _ => CipherHandle.isShort_of_cbcEncryptor hmade
    · exact nofun

theorem inBounds_beginEncode (c : Crypt) (ctx : CryptoContext)
    (h : (c.beginEncode ctx).2.fault = none) : (c.beginEncode ctx).2.state.InBounds .encode := by
  revert h
  unfold beginEncode
  dsimp only
  split
  · exact nofun
  · exact inBounds_openEncode _ _ _

theorem inRange_encodeBlock (h : c.InBounds .encode) (data : Bytes) :
    Step.InRange (InBounds .encode) (encodeBlock? c data) (c.encodeBlock data) := by
  obtain ⟨cipher, key, iv, handle, session⟩ := c
  cases session with
  | rc4 stream => exact Step.inRange_write trivial _
  | aesEncrypt encryptor => exact (Cbc.Encryptor.inRange_update h data).map fun _ => id
  | idle | aesIv | aesDecrypt => exact Step.inRange_stop _ _

theorem inRange_endEncode (h : c.InBounds .encode) :
    Step.InRange (InBounds .encode) (endEncode? c) c.endEncode := by
  obtain ⟨cipher, key, iv, handle, session⟩ := c
  cases session with
  | rc4 stream => exact Step.inRange_quiet trivial
  | aesEncrypt encryptor => exact (Cbc.Encryptor.inRange_finish h).map fun _ _ => trivial
  | idle | aesIv | aesDecrypt => exact Step.inRange_stop _ _

theorem openDecode?_eq (c : Crypt) (handle : CipherHandle) :
    openDecode? c handle = some (c.openDecode handle) := by
  unfold openDecode? openDecode
  cases handle.kind with
  | rc4 => exact congrArg (Option.map _) (handle.rc4?_eq c.key)
  | aes128Cbc | aes256Cbc => rfl

theorem beginDecode?_eq (c : Crypt) (parms : Option DecodeParms) (ctx : CryptoContext) :
    beginDecode? c parms ctx = some (c.beginDecode parms ctx) := by
  unfold beginDecode? beginDecode
  dsimp only
  cases decodeCipher { c with session := .idle } parms with
  | error e => rfl
  | ok cipher =>
    dsimp only
    rcases resolve { c with session := .idle } cipher ctx with ⟨ctx', e | handle⟩
    · rfl
    · simp only [openDecode?_eq, Option.map_some]

theorem inBounds_openDecode (c : Crypt) (handle : CipherHandle) :
    (c.openDecode handle).fault = none → (c.openDecode handle).state.InBounds .decode := by
  unfold openDecode
  cases handle.kind with
  | rc4 =>
    dsimp only
    split
    · exact fun _ => trivial
    · exact nofun
  | aes128Cbc | aes256Cbc => exact fun _ => Nat.succ_pos 15

theorem inBounds_beginDecode (c : Crypt) (parms : Option DecodeParms) (ctx : CryptoContext)
    (h : (c.beginDecode parms ctx).2.fault = none) :
    (c.beginDecode parms ctx).2.state.InBounds .decode := by
  revert h
  unfold beginDecode
  dsimp only
  split
  · exact nofun
  · split
    · exact nofun
    · exact inBounds_openDecode _ _

theorem decryptor?_eq (c : Crypt) (iv : Bytes) : decryptor? c iv = some (c.decryptor iv) := by
  unfold decryptor? decryptor
  cases c.handle with
  | none => rfl
  | some handle => exact handle.cbcDecryptor?_eq c.key iv

theorem isShort_of_decryptor {iv : Bytes} {d : Cbc.Decryptor} (h : c.decryptor iv = .ok d) :
    d.IsShort := by
  unfold decryptor at h
  split at h
  · exact CipherHandle.isShort_of_cbcDecryptor h
  · cases h

theorem inRange_decodeWith (c : Crypt) {d : Cbc.Decryptor} (h : d.IsShort) (data : Bytes) :
    Step.InRange (InBounds .decode) (c.decodeWith? d data) (c.decodeWith d data) :=
  (Cbc.Decryptor.inRange_update h data).map fun _ => id

theorem inRange_decodeBlock (h : c.InBounds .decode) (data : Bytes) :
    Step.InRange (InBounds .decode) (decodeBlock? c data) (c.decodeBlock data) := by
  obtain ⟨cipher, key, own, handle, session⟩ := c
  cases session with
  | rc4 stream => exact Step.inRange_write trivial _
  | aesIv iv =>
    have hiv : iv.length ≤ 16 := Nat.le_of_lt h
    simp only [decodeBlock?, decodeBlock, Checked.sub_eq hiv, Checked.front_min, Checked.back_min,
      Option.bind_eq_bind, Option.bind_some, decryptor?_eq]
    by_cases hshort : (iv ++ data.take (16 - iv.length)).length < 16
    · rw [if_pos hshort, if_pos hshort]
      exact Step.inRange_quiet hshort
    · rw [if_neg hshort, if_neg hshort]
      cases hmade : decryptor ⟨cipher, key, own, handle, .aesIv iv⟩
          (iv ++ data.take (16 - iv.length)) with
      | error e => exact Step.inRange_stop _ e
      | ok d => exact inRange_decodeWith _ (isShort_of_decryptor hmade) _
  | aesDecrypt decryptor => exact inRange_decodeWith _ h data
  | idle | aesEncrypt => exact Step.inRange_stop _ _

theorem inRange_endDecode (c : Crypt) :
    Step.InRange (fun _ => True) (endDecode? c) c.endDecode := by
  refine ⟨?_, fun _ => trivial⟩
  unfold endDecode? endDecode
  cases c.session with
  | aesDecrypt decryptor =>
    simp only [decryptor.finish?_eq, Option.map_some]
  | idle | rc4 | aesEncrypt | aesIv => rfl

end
end Crypt
end PdfStream
