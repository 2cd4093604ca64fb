import PdfStream.Proofs.Cipher.Cbc

/-!
Whole blocks in CBC mode. While the data come in, the encryptor writes every block that is complete,
and the decryptor every one that a byte has come after. The cuts of the data do not count.
-/
namespace PdfStream.Cbc
open Aes (Block)

/-- The whole blocks of the data, encrypted. What is left behind them does not count. -/
def encryptBlocks (c : Aes.Cipher) (previous : Block) (data : Bytes) : Bytes :=
  if data.length < 16 then []
  else
    let out := link c previous (data.take 16)
    out.toBytes ++ encryptBlocks c out (data.drop 16)
termination_by data.length
decreasing_by
  rw [List.length_drop]
  omega

/-- The whole blocks of the text, decrypted. The padding is not looked at. -/
def decryptBlocks (c : Aes.Cipher) (previous : Block) (text : Bytes) : Bytes :=
  if text.length < 16 then []
  else
    unlink c previous (text.take 16) ++
      decryptBlocks c (.ofBytes (text.take 16)) (text.drop 16)
termination_by text.length
decreasing_by
  rw [List.length_drop]
  omega

section
variable (c : Aes.Cipher) (previous : Block)

theorem encryptBlocks_of_short {data : Bytes} (h : data.length < 16) :
    encryptBlocks c previous data = [] := by
  rw [encryptBlocks, if_pos h]

theorem decryptBlocks_of_short {text : Bytes} (h : text.length < 16) :
    decryptBlocks c previous text = [] := by
  rw [decryptBlocks, if_pos h]

@[simp] theorem encryptBlocks_nil : encryptBlocks c previous [] = [] :=
  encryptBlocks_of_short c previous (Nat.zero_lt_succ 15)

@[simp] theorem decryptBlocks_nil : decryptBlocks c previous [] = [] :=
  decryptBlocks_of_short c previous (Nat.zero_lt_succ 15)

theorem encryptBlocks_append {block : Bytes} (h : block.length = 16) (rest : Bytes) :
    encryptBlocks c previous (block ++ rest) =
      (link c previous block).toBytes ++ encryptBlocks c (link c previous block) rest := by
  have hlong : ¬(block ++ rest).length < 16 := by
    rw [List.length_append]
    omega
  rw [encryptBlocks, if_neg hlong, List.take_left' h, List.drop_left' h]

theorem decryptBlocks_append {block : Bytes} (h : block.length = 16) (rest : Bytes) :
    decryptBlocks c previous (block ++ rest) =
      unlink c previous block ++ decryptBlocks c (.ofBytes block) rest := by
  have hlong : ¬(block ++ rest).length < 16 := by
    rw [List.length_append]
    omega
  rw [decryptBlocks, if_neg hlong, List.take_left' h, List.drop_left' h]

theorem length_decryptBlocks (text : Bytes) :
    (decryptBlocks c previous text).length = 16 * (text.length / 16) := by
  fun_induction decryptBlocks c previous text with
  | case1 previous text hshort => rw [List.length_nil, Nat.div_eq_of_lt hshort]
  | case2 previous text hlong ih =>
    rw [List.length_append, length_unlink, ih, List.length_drop]
    omega

/-- Cutting off what is left behind the whole blocks changes nothing. -/
theorem encryptBlocks_take (data : Bytes) :
    encryptBlocks c previous (data.take (16 * (data.length / 16))) =
      encryptBlocks c previous data := by
  fun_induction encryptBlocks c previous data with
  | case1 previous data hshort =>
    rw [Nat.div_eq_of_lt hshort]
    exact encryptBlocks_nil c previous
  | case2 previous data hlong out ih =>
    have hblock : (data.take 16).length = 16 := by
      rw [List.length_take]
      omega
    have hcount : 16 * (data.length / 16) = 16 + 16 * ((data.drop 16).length / 16) := by
      rw [List.length_drop]
      omega
    rw [hcount, List.take_add, encryptBlocks_append c previous hblock, ih]

end

/-- Every block that is complete is written. By induction on the data. -/
theorem run_encryptor {e : Encryptor} (he : e.pending.length < 16) (data : Bytes) :
    ∃ e', (Step.run Encryptor.addByte e data).Yields e'
      (encryptBlocks e.cipher e.previous (e.pending ++ data)) := by
  induction data generalizing e with
  | nil =>
    refine ⟨e, ?_⟩
    rw [List.append_nil, encryptBlocks_of_short _ _ he]
    exact Step.yields_quiet e
  | cons b data ih =>
    rw [Step.run_cons, List.append_cons]
    have hlength : (e.pending ++ [b]).length = e.pending.length + 1 := by
      rw [List.length_append, List.length_singleton]
    by_cases hfull : (e.pending ++ [b]).length = 16
    · obtain ⟨out, hout⟩ : ∃ out, out = link e.cipher e.previous (e.pending ++ [b]) := ⟨_, rfl⟩
      have hadd : (e.addByte b).Yields { e with previous := out, pending := [] } out.toBytes := by
        rw [Encryptor.addByte, if_pos hfull, hout]
        exact Step.yields_write _ _
      obtain ⟨e', hrest⟩ := ih (e := { e with previous := out, pending := [] }) (by simp)
      refine ⟨e', ?_⟩
      rw [encryptBlocks_append _ _ hfull, ← hout]
      exact hadd.andThen hrest
    · have hadd : (e.addByte b).Yields { e with pending := e.pending ++ [b] } [] := by
        rw [Encryptor.addByte, if_neg hfull]
        exact Step.yields_quiet _
      obtain ⟨e', hrest⟩ := ih (e := { e with pending := e.pending ++ [b] }) (by
        dsimp only
        omega)
      exact ⟨e', hadd.andThen hrest⟩

/-- What a decryptor has written of a text: the last block, or the part of one, is kept. -/
def ready (text : Bytes) : Bytes := text.take (16 * ((text.length - 1) / 16))

theorem ready_append {block : Bytes} (h : block.length = 16) {rest : Bytes} (hrest : rest ≠ []) :
    ready (block ++ rest) = block ++ ready rest := by
  have hpos := List.length_pos_iff.2 hrest
  have hcount : 16 * (((block ++ rest).length - 1) / 16) =
      block.length + 16 * ((rest.length - 1) / 16) := by
    rw [List.length_append]
    omega
  rw [ready, hcount, List.take_length_add_append, ready]

/-- A block is written as soon as a byte comes after it. By induction on the data. -/
theorem run_decryptor {d : Decryptor} (hd : d.pending.length ≤ 16) (data : Bytes) :
    ∃ d', (Step.run Decryptor.addByte d data).Yields d'
      (decryptBlocks d.cipher d.previous (ready (d.pending ++ data))) := by
  induction data generalizing d with
  | nil =>
    refine ⟨d, ?_⟩
    have hnone : ready (d.pending ++ []) = [] := by
      rw [List.append_nil, ready, show 16 * ((d.pending.length - 1) / 16) = 0 by omega,
        List.take_zero]
    rw [hnone, decryptBlocks_nil]
    exact Step.yields_quiet d
  | cons b data ih =>
    rw [Step.run_cons]
    by_cases hfull : d.pending.length = 16
    · obtain ⟨d', hrest⟩ := ih (d := ⟨d.keyBits, d.cipher, .ofBytes d.pending, [b]⟩) (by simp)
      refine ⟨d', ?_⟩
      have hadd : (d.addByte b).Yields ⟨d.keyBits, d.cipher, .ofBytes d.pending, [b]⟩
          (unlink d.cipher d.previous d.pending) := by
        rw [Decryptor.addByte, if_pos hfull]
        exact Step.yields_write _ _
      rw [ready_append hfull (List.cons_ne_nil b data), decryptBlocks_append _ _ hfull]
      exact hadd.andThen hrest
    · obtain ⟨d', hrest⟩ := ih (d := { d with pending := d.pending ++ [b] }) (by
        rw [List.length_append, List.length_singleton]
        omega)
      have hadd : (d.addByte b).Yields { d with pending := d.pending ++ [b] } [] := by
        rw [Decryptor.addByte, if_neg hfull]
        exact Step.yields_quiet _
      refine ⟨d', ?_⟩
      rw [List.append_cons]
      exact hadd.andThen hrest

theorem unpad_append_left {block data : Bytes} (h : Padding.unpad block = .ok data)
    (front : Bytes) : Padding.unpad (front ++ block) = .ok (front ++ data) := by
  obtain ⟨count, hpos, hle, rfl⟩ := Padding.eq_append_of_unpad h
  rw [← List.append_assoc]
  exact Padding.unpad_append hpos hle

/-- The data of a text are its blocks without the padding. -/
theorem unpad_decryptBlocks {c : Aes.Cipher} {previous : Block} {text data : Bytes}
    (h : plainText? c previous text = some data) :
    text.length % 16 = 0 ∧ Padding.unpad (decryptBlocks c previous text) = .ok data := by
  fun_induction plainText? c previous text generalizing data with
  | case1 => cases h
  | case2 previous text _ hwhole =>
    have hlast : decryptBlocks c previous text = unlink c previous text := by
      have hsplit := decryptBlocks_append c previous hwhole []
      simpa using hsplit
    rw [hlast, hwhole]
    cases hunpad : Padding.unpad (unlink c previous text) with
    | error e =>
      rw [hunpad] at h
      cases h
    | ok front =>
      rw [hunpad] at h
      cases h
      exact ⟨rfl, rfl⟩
  | case3 previous text hshort hwhole ih =>
    obtain ⟨rest, hrest, rfl⟩ := Option.map_eq_some_iff.1 h
    obtain ⟨hmod, hunpad⟩ := ih hrest
    rw [List.length_drop] at hmod
    refine ⟨by omega, ?_⟩
    rw [decryptBlocks, if_neg hshort]
    exact unpad_append_left hunpad _

end PdfStream.Cbc
