import PdfStream.Cipher.Cbc
import PdfStream.Proofs.Cipher.Aes
import PdfStream.Proofs.Coder

/-!
AES in CBC mode over any cuts of the data. Both directions go byte by byte; the decryptor releases a
block with the byte after it. A text has data exactly if it is the ciphertext of these data: whole
blocks, the last of them padded.
-/
namespace PdfStream

namespace Padding

/-- One to sixteen equal bytes at the end, each the number of them. -/
def IsPadded (data : Bytes) : Prop :=
  ∃ front count, 1 ≤ count ∧ count ≤ 16 ∧ data = front ++ List.replicate count (UInt8.ofNat count)

theorem unpad_append {front : Bytes} {count : Nat} (hpos : 1 ≤ count) (hle : count ≤ 16) :
    unpad (front ++ List.replicate count (UInt8.ofNat count)) = .ok front := by
  obtain ⟨data, hdata⟩ : ∃ data, data = front ++ List.replicate count (UInt8.ofNat count) :=
    ⟨_, rfl⟩
  have hlast : data.getLast? = some (UInt8.ofNat count) := by
    rw [hdata, List.getLast?_append, List.getLast?_replicate, if_neg (by omega)]
    rfl
  have hnat : (UInt8.ofNat count).toNat = count := by
    rw [UInt8.toNat_ofNat']
    omega
  have hlength : data.length = front.length + count := by
    rw [hdata, List.length_append, List.length_replicate]
  have hfits : ¬(count = 0 ∨ 16 < count ∨ front.length + count < count) := by omega
  have hsame : (data.drop front.length).any (· ≠ UInt8.ofNat count) = false := by
    rw [hdata, List.drop_left, List.any_eq_false]
    intro b hb
    simp [(List.mem_replicate.1 hb).2]
  have htake : data.take front.length = front := by
    rw [hdata, List.take_left]
  rw [← hdata, unpad, hlast]
  dsimp only
  rw [hnat, hlength, Nat.add_sub_cancel, if_neg hfits, hsame, htake]
  rfl

/-- Nothing else is removed. -/
theorem eq_append_of_unpad {data front : Bytes} (h : unpad data = .ok front) :
    ∃ count, 1 ≤ count ∧ count ≤ 16 ∧
      data = front ++ List.replicate count (UInt8.ofNat count) := by
  unfold unpad at h
  split at h
  next => cases h
  next last _ =>
    dsimp only at h
    split at h
    next => cases h
    next hfits =>
      split at h
      next => cases h
      next hsame =>
        cases h
        refine ⟨last.toNat, by omega, by omega, ?_⟩
        have hrest : data.drop (data.length - last.toNat) = List.replicate last.toNat last := by
          rw [List.eq_replicate_iff]
          constructor
          · rw [List.length_drop]
            omega
          · intro b hb
            simp only [List.any_eq_true, decide_eq_true_eq, not_exists, not_and,
              not_not] at hsame
            exact hsame b hb
        rw [UInt8.ofNat_toNat, ← hrest, List.take_append_drop]

theorem unpad_eq_none_iff (data : Bytes) : (unpad data).toOption = none ↔ ¬IsPadded data := by
  constructor
  · rintro hnone ⟨front, count, hpos, hle, rfl⟩
    rw [unpad_append hpos hle] at hnone
    cases hnone
  · intro hnot
    cases hunpad : unpad data with
    | error e => rfl
    | ok front => exact absurd ⟨front, eq_append_of_unpad hunpad⟩ hnot

theorem pad_eq {data : Bytes} (h : data.length < 16) :
    pad data = data ++ List.replicate (16 - data.length) (UInt8.ofNat (16 - data.length)) := by
  rw [pad, Nat.mod_eq_of_lt h]

/-- The padding is there to be removed. -/
theorem unpad_pad {data : Bytes} (h : data.length < 16) : unpad (pad data) = .ok data := by
  rw [pad_eq h]
  exact unpad_append (by omega) (by omega)

/-- A block with its padding is the padded form of what is in front of it. -/
theorem eq_pad_of_unpad {block data : Bytes} (hblock : block.length = 16)
    (h : unpad block = .ok data) : data.length < 16 ∧ block = pad data := by
  obtain ⟨count, hpos, hle, rfl⟩ := eq_append_of_unpad h
  rw [List.length_append, List.length_replicate] at hblock
  have hcount : 16 - data.length = count := by omega
  refine ⟨by omega, ?_⟩
  rw [pad_eq (by omega), hcount]

theorem length_pad {data : Bytes} (h : data.length < 16) : (pad data).length = 16 := by
  rw [pad, List.length_append, List.length_replicate]
  omega

end Padding

namespace Aes.Block

theorem ofBytes_toBytes (b : Block) : ofBytes b.toBytes = b := by
  ext i hi
  simp [ofBytes, toBytes]

theorem toBytes_ofBytes {bytes : Bytes} (h : bytes.length = 16) :
    (ofBytes bytes).toBytes = bytes := by
  apply List.ext_getElem
  · rw [length_toBytes, h]
  · intro i h1 h2
    simp [ofBytes, toBytes, h2]

end Aes.Block

namespace Cbc
open Aes (Block)

def encoding : Coder Encryptor := ⟨fun data e => e.update data, Encryptor.finish⟩

def decoding : Coder Decryptor := ⟨fun data d => d.update data, Decryptor.finish⟩

/-- What encrypting makes of the data. -/
def encrypted (e : Encryptor) (data : Bytes) : Option Bytes :=
  ((Step.run Encryptor.addByte e data).andThen Encryptor.finish).output?

/-- What decrypting makes of the data. -/
def decrypted (d : Decryptor) (data : Bytes) : Option Bytes :=
  ((Step.run Decryptor.addByte d data).andThen Decryptor.finish).output?

theorem encoding_computes (e : Encryptor) : encoding.Computes e (encrypted e) :=
  Coder.computes_run encoding Encryptor.addByte Encryptor.finish id
    (fun s data => Step.agrees_joined (Step.run Encryptor.addByte s data)) (fun _ => rfl) e

theorem decoding_computes (d : Decryptor) : decoding.Computes d (decrypted d) :=
  Coder.computes_run decoding Decryptor.addByte Decryptor.finish id
    (fun s data => Step.agrees_joined (Step.run Decryptor.addByte s data)) (fun _ => rfl) d

/-- The ciphertext block of 16 bytes, after `previous`. -/
def link (c : Aes.Cipher) (previous : Block) (block : Bytes) : Block :=
  c.encrypt ((Block.ofBytes block).xor previous)

/-- The ciphertext of the data, block by block. -/
def cipherText (c : Aes.Cipher) (previous : Block) (data : Bytes) : Bytes :=
  if data.length < 16 then (link c previous (Padding.pad data)).toBytes
  else
    let out := link c previous (data.take 16)
    out.toBytes ++ cipherText c out (data.drop 16)
termination_by data.length
decreasing_by
  rw [List.length_drop]
  omega

theorem cipherText_append (c : Aes.Cipher) (previous : Block) {block : Bytes}
    (h : block.length = 16) (rest : Bytes) : cipherText c previous (block ++ rest) =
      (link c previous block).toBytes ++ cipherText c (link c previous block) rest := by
  have hlong : ¬(block ++ rest).length < 16 := by
    rw [List.length_append]
    omega
  rw [cipherText, if_neg hlong, List.take_left' h, List.drop_left' h]

/-- Encrypting writes the ciphertext of all the data. -/
theorem encrypted_eq {e : Encryptor} (he : e.pending.length < 16) (data : Bytes) :
    encrypted e data = some (cipherText e.cipher e.previous (e.pending ++ data)) := by
  induction data generalizing e with
  | nil =>
    rw [encrypted, Step.run_nil, Step.quiet_andThen, List.append_nil, cipherText, if_pos he]
    exact Step.output?_write _ _
  | cons b data ih =>
    rw [encrypted, Step.run_cons, Step.andThen_assoc]
    have hlength : (e.pending ++ [b]).length = e.pending.length + 1 := by
      rw [List.length_append, List.length_singleton]
    have hsplit : e.pending ++ b :: data = (e.pending ++ [b]) ++ data := by simp
    rw [hsplit]
    by_cases hfull : (e.pending ++ [b]).length = 16
    · obtain ⟨out, hout⟩ : ∃ out, out = link e.cipher e.previous (e.pending ++ [b]) := ⟨_, rfl⟩
      have hadd : (e.addByte b).Yields { e with previous := out, pending := [] } out.toBytes := by
        rw [Encryptor.addByte, if_pos hfull, hout]
        exact Step.yields_write _ _
      have hrest := ih (e := { e with previous := out, pending := [] }) (Nat.zero_lt_succ 15)
      rw [encrypted, List.nil_append] at hrest
      rw [Step.output?_andThen, hadd.output?, hadd.2.1, Option.bind_some, hrest, Option.map_some,
        cipherText_append _ _ hfull, hout]
    · have hadd : (e.addByte b).Yields { e with pending := e.pending ++ [b] } [] := by
        rw [Encryptor.addByte, if_neg hfull]
        exact Step.yields_quiet _
      have hrest := ih (e := { e with pending := e.pending ++ [b] }) (by
        dsimp only
        omega)
      rw [encrypted] at hrest
      rw [Step.output?_andThen, hadd.output?, hadd.2.1, Option.bind_some, hrest, Option.map_some,
        List.nil_append]

/-- A block is kept until the byte after it comes. -/
theorem run_addByte_block {d : Decryptor} {block : Bytes}
    (h : d.pending.length + block.length ≤ 16) :
    (Step.run Decryptor.addByte d block).Yields { d with pending := d.pending ++ block } [] := by
  induction block generalizing d with
  | nil =>
    rw [List.append_nil]
    exact Step.yields_quiet _
  | cons b block ih =>
    rw [List.length_cons] at h
    have hnot : ¬d.pending.length = 16 := by omega
    have hfirst : (d.addByte b).Yields { d with pending := d.pending ++ [b] } [] := by
      rw [Decryptor.addByte, if_neg hnot]
      exact Step.yields_quiet _
    have hrest := ih (d := { d with pending := d.pending ++ [b] }) (by
      rw [List.length_append, List.length_singleton]
      omega)
    rw [List.append_assoc, List.singleton_append] at hrest
    rw [Step.run_cons]
    exact hfirst.andThen hrest

/-- The byte after a block releases it. -/
theorem decrypted_release {d : Decryptor} (hd : d.pending.length = 16) (b : UInt8) (rest : Bytes) :
    decrypted d (b :: rest) =
      (decrypted (d.decryptBlock d.pending).2 (b :: rest)).map
        ((d.decryptBlock d.pending).1 ++ ·) := by
  have hfirst : d.addByte b = .write { (d.decryptBlock d.pending).2 with pending := [b] }
      (d.decryptBlock d.pending).1 := if_pos hd
  have hsecond : (d.decryptBlock d.pending).2.addByte b =
      .quiet { (d.decryptBlock d.pending).2 with pending := [b] } := rfl
  rw [decrypted, decrypted, Step.run_cons, Step.run_cons, hfirst, hsecond, Step.quiet_andThen,
    Step.andThen_assoc, Step.output?_andThen, Step.output?_write]
  rfl

theorem length_cipherText (c : Aes.Cipher) (previous : Block) (data : Bytes) :
    (cipherText c previous data).length = 16 * (data.length / 16 + 1) := by
  fun_induction cipherText c previous data with
  | case1 previous data hshort =>
    rw [Block.length_toBytes, Nat.div_eq_of_lt hshort]
  | case2 previous data hlong out ih =>
    rw [List.length_append, Block.length_toBytes, ih, List.length_drop]
    omega

/-- Up to one block is kept. -/
theorem decrypted_kept (keyBits : Nat) (c : Aes.Cipher) (previous : Block) {block : Bytes}
    (h : block.length ≤ 16) (rest : Bytes) :
    decrypted ⟨keyBits, c, previous, []⟩ (block ++ rest) =
      decrypted ⟨keyBits, c, previous, block⟩ rest := by
  have hread : (Step.run Decryptor.addByte ⟨keyBits, c, previous, []⟩ block).Yields
      ⟨keyBits, c, previous, block⟩ [] := run_addByte_block (by simpa using h)
  rw [decrypted, Step.run_append, Step.andThen_assoc, Step.output?_andThen, hread.output?,
    hread.2.1, Option.bind_some]
  exact Option.map_id'

/-- A block that nothing follows is left to the end. -/
theorem decrypted_last (keyBits : Nat) (c : Aes.Cipher) (previous : Block) {text : Bytes}
    (h : text.length ≤ 16) : decrypted ⟨keyBits, c, previous, []⟩ text =
      (Decryptor.finish ⟨keyBits, c, previous, text⟩).output? := by
  have hkept := decrypted_kept keyBits c previous h []
  rw [List.append_nil] at hkept
  rw [hkept, decrypted, Step.run_nil, Step.quiet_andThen]

/-- The plaintext block of 16 bytes, after `previous`. -/
def unlink (c : Aes.Cipher) (previous : Block) (block : Bytes) : Bytes :=
  ((c.decrypt (Block.ofBytes block)).xor previous).toBytes

/-- The data of a ciphertext, block by block. The last block carries the padding. -/
def plainText? (c : Aes.Cipher) (previous : Block) (text : Bytes) : Option Bytes :=
  if text.length < 16 then none
  else if text.length = 16 then (Padding.unpad (unlink c previous text)).toOption
  else
    (plainText? c (.ofBytes (text.take 16)) (text.drop 16)).map
      (unlink c previous (text.take 16) ++ ·)
termination_by text.length
decreasing_by
  rw [List.length_drop]
  omega

/-- Decrypting writes the data of the ciphertext, or fails if it has none. -/
theorem decrypted_eq (keyBits : Nat) (c : Aes.Cipher) (previous : Block) (text : Bytes) :
    decrypted ⟨keyBits, c, previous, []⟩ text = plainText? c previous text := by
  fun_induction plainText? c previous text with
  | case1 previous text hshort =>
    rw [decrypted_last keyBits c previous (by omega), Decryptor.finish, if_pos (by dsimp only; omega)]
    rfl
  | case2 previous text _ hwhole =>
    rw [decrypted_last keyBits c previous (by omega), Decryptor.finish, if_neg (not_not_intro hwhole)]
    dsimp only [Decryptor.decryptBlock]
    rw [unlink]
    split
    next h =>
      rw [h]
      exact Step.output?_write _ _
    next h =>
      rw [h]
      rfl
  | case3 previous text hshort hwhole ih =>
    have hfirst : (text.take 16).length = 16 := by
      rw [List.length_take]
      omega
    match hrest : text.drop 16, List.length_drop (i := 16) (l := text) with
    | [], hlength => simp at hlength; omega
    | b :: rest, _ =>
      have hkept := decrypted_kept keyBits c previous (Nat.le_of_eq hfirst) (text.drop 16)
      rw [List.take_append_drop, hrest, decrypted_release hfirst] at hkept
      rw [hrest] at ih
      rw [hkept, ← ih]
      rfl

/-- Every block is the encryption of its plaintext. -/
theorem link_unlink (c : Aes.Cipher) (previous : Block) {block : Bytes} (h : block.length = 16) :
    (link c previous (unlink c previous block)).toBytes = block := by
  rw [link, unlink, Block.ofBytes_toBytes, Block.xor_xor, Aes.Cipher.encrypt_decrypt,
    Block.toBytes_ofBytes h]

theorem length_unlink (c : Aes.Cipher) (previous : Block) (block : Bytes) :
    (unlink c previous block).length = 16 := Block.length_toBytes _

theorem unlink_link (c : Aes.Cipher) (previous : Block) {block : Bytes} (h : block.length = 16) :
    unlink c previous (link c previous block).toBytes = block := by
  rw [unlink, Block.ofBytes_toBytes, link, Aes.Cipher.decrypt_encrypt, Block.xor_xor,
    Block.toBytes_ofBytes h]

theorem plainText?_cipherText (c : Aes.Cipher) (previous : Block) (data : Bytes) :
    plainText? c previous (cipherText c previous data) = some data := by
  fun_induction cipherText c previous data with
  | case1 previous data hshort =>
    have hlength := Block.length_toBytes (link c previous (Padding.pad data))
    rw [plainText?, if_neg (by omega), if_pos hlength, unlink_link c previous
      (Padding.length_pad hshort), Padding.unpad_pad hshort]
    rfl
  | case2 previous data hlong out ih =>
    have hlength := Block.length_toBytes out
    have hpos := length_cipherText c out (data.drop 16)
    have htake : (data.take 16).length = 16 := by
      rw [List.length_take]
      omega
    have hwhole : (out.toBytes ++ cipherText c out (data.drop 16)).length =
        16 + (cipherText c out (data.drop 16)).length := by
      rw [List.length_append, hlength]
    rw [plainText?, if_neg (by omega), if_neg (by omega), List.take_left' hlength,
      List.drop_left' hlength, Block.ofBytes_toBytes, ih, Option.map_some,
      unlink_link c previous htake, List.take_append_drop]

/-- A ciphertext with data is the ciphertext of these data. -/
theorem eq_cipherText_of_plainText? {c : Aes.Cipher} {previous : Block} {text data : Bytes}
    (h : plainText? c previous text = some data) : text = cipherText c previous data := by
  fun_induction plainText? c previous text generalizing data with
  | case1 => cases h
  | case2 previous text _ hwhole =>
    cases hunpad : Padding.unpad (unlink c previous text) with
    | error e =>
      rw [hunpad] at h
      cases h
    | ok front =>
      rw [hunpad] at h
      cases h
      obtain ⟨hshort, hpad⟩ := Padding.eq_pad_of_unpad (length_unlink c previous text) hunpad
      rw [cipherText, if_pos hshort, ← hpad, link_unlink c previous hwhole]
  | case3 previous text hshort hwhole ih =>
    obtain ⟨rest, hrest, rfl⟩ := Option.map_eq_some_iff.1 h
    have htake : (text.take 16).length = 16 := by
      rw [List.length_take]
      omega
    have hlink := link_unlink c previous htake
    have hblock : link c previous (unlink c previous (text.take 16)) =
        .ofBytes (text.take 16) := by
      rw [← Block.ofBytes_toBytes (link _ _ _), hlink]
    rw [cipherText_append c previous (length_unlink c previous _), hlink, hblock, ← ih hrest,
      List.take_append_drop]

theorem plainText?_eq_some_iff (c : Aes.Cipher) (previous : Block) (text data : Bytes) :
    plainText? c previous text = some data ↔ text = cipherText c previous data := by
  constructor
  · exact eq_cipherText_of_plainText?
  · rintro rfl
    exact plainText?_cipherText c previous data

/-- The plaintext of the last block of a stream of blocks, each linked to the one before it. -/
def lastPlain (c : Aes.Cipher) (stream : Bytes) : Bytes :=
  unlink c (.ofBytes ((stream.drop (stream.length - 32)).take 16))
    (stream.drop (stream.length - 16))

/-- Without data are those texts that are no whole blocks, or whose last block is not padded. -/
theorem plainText?_eq_none_iff (c : Aes.Cipher) {before : Bytes} (h : before.length = 16)
    (text : Bytes) : plainText? c (.ofBytes before) text = none ↔
      text.length < 16 ∨ text.length % 16 ≠ 0 ∨
        ¬Padding.IsPadded (lastPlain c (before ++ text)) := by
  induction hn : text.length using Nat.strongRecOn generalizing before text with
  | _ n ih =>
    have hlength : (before ++ text).length = 16 + n := by
      rw [List.length_append, h, hn]
    rw [plainText?]
    by_cases hshort : text.length < 16
    · simp [hshort, ← hn]
    rw [if_neg hshort]
    by_cases hwhole : text.length = 16
    · have hlast : lastPlain c (before ++ text) = unlink c (.ofBytes before) text := by
        have hsixteen : n = 16 := by omega
        rw [lastPlain, hlength, hsixteen, List.drop_left' h]
        simp [h, List.take_left']
      have hsixteen : n = 16 := by omega
      rw [if_pos hwhole, Padding.unpad_eq_none_iff, hlast]
      simp [hsixteen]
    · have htake : (text.take 16).length = 16 := by
        rw [List.length_take]
        omega
      have hdrop : (text.drop 16).length = n - 16 := by
        rw [List.length_drop, hn]
      have hrest := ih (n - 16) (by omega) htake (text.drop 16) hdrop
      rw [if_neg hwhole, Option.map_eq_none_iff, hrest, List.take_append_drop]
      by_cases hblocks : n % 16 = 0
      · have hlast : lastPlain c (before ++ text) = lastPlain c text := by
          have hfar : 16 + n - 32 = before.length + (n - 32) := by omega
          have hnear : 16 + n - 16 = before.length + (n - 16) := by omega
          rw [lastPlain, lastPlain, hlength, hn, hfar, hnear, List.drop_length_add_append,
            List.drop_length_add_append]
        have hlong : ¬n < 16 ∧ ¬n - 16 < 16 ∧ (n - 16) % 16 = 0 := by omega
        rw [hlast]
        simp [hblocks, hlong]
      · have hodd : ¬(n - 16) % 16 = 0 := by omega
        simp [hblocks, hodd]

end Cbc
end PdfStream
