import PdfStream.Proofs.Delimited
import PdfStream.Proofs.Lzw.Encoder
import PdfStream.Proofs.Lzw.Session

/-!
Reading back what an LZW encoder writes. The decoder's table is that of the encoder without the last
word, which the decoder learns with the code that the encoder writes next; so both switch to the
next width, and give up a full table, at the same code. The decoder needs every code that was
written, the end code included.
-/
namespace PdfStream
namespace Lzw

/-- The word of a code in a table of the codes from 258 on. -/
def wordIn (table : Array Bytes) (code : Nat) : Option Bytes :=
  if code < 256 then some [UInt8.ofNat code]
  else if code < firstCode then none
  else table[code - firstCode]?

theorem word?_eq_wordIn (d : Decoder) (code : Nat) : d.word? code = wordIn d.words code := rfl

theorem wordIn_byte (table : Array Bytes) (b : UInt8) : wordIn table b.toNat = some [b] := by
  have hlt : b.toNat < 256 := b.toNat_lt
  rw [wordIn, if_pos hlt, UInt8.ofNat_toNat]

/-- Codes of words are not marks, and all are numbered. -/
theorem code_of_wordIn {table : Array Bytes} {code : Nat} {word : Bytes}
    (h : wordIn table code = some word) :
    code ≠ clearCode ∧ code ≠ endCode ∧ code < firstCode + table.size := by
  unfold wordIn at h
  split at h
  next hbyte =>
    refine ⟨?_, ?_, ?_⟩ <;> simp only [clearCode, endCode, firstCode] <;> omega
  next hbyte =>
    split at h
    next => cases h
    next hlong =>
      obtain ⟨hlt, -⟩ := Array.getElem?_eq_some_iff.1 h
      simp only [clearCode, endCode, firstCode] at hlong hlt ⊢
      omega

theorem wordIn_push {table : Array Bytes} {code : Nat} {word : Bytes}
    (h : wordIn table code = some word) (new : Bytes) :
    wordIn (table.push new) code = some word := by
  unfold wordIn at h ⊢
  split at h
  next hbyte => rw [if_pos hbyte, h]
  next hbyte =>
    split at h
    next => cases h
    next hlong =>
      obtain ⟨hlt, -⟩ := Array.getElem?_eq_some_iff.1 h
      rw [if_neg hbyte, if_neg hlong, Array.getElem?_push_lt hlt, ← h,
        Array.getElem?_eq_getElem hlt]

theorem wordIn_push_last (table : Array Bytes) (new : Bytes) :
    wordIn (table.push new) (firstCode + table.size) = some new := by
  have hbyte : ¬firstCode + table.size < 256 := by
    simp only [firstCode]
    omega
  have hlong : ¬firstCode + table.size < firstCode := by omega
  rw [wordIn, if_neg hbyte, if_neg hlong, Nat.add_sub_cancel_left, Array.getElem?_push_size]

theorem wordIn_of_push {table : Array Bytes} {new : Bytes} {code : Nat} {word : Bytes}
    (h : wordIn (table.push new) code = some word) (hne : code ≠ firstCode + table.size) :
    wordIn table code = some word := by
  unfold wordIn at h ⊢
  split at h
  next hbyte => rw [if_pos hbyte, h]
  next hbyte =>
    split at h
    next => cases h
    next hlong =>
      have hother : code - firstCode ≠ table.size := by omega
      rw [if_neg hbyte, if_neg hlong, ← h, Array.getElem?_push, if_neg hother]

/-- The width after a code: how both sides decide to widen. -/
def nextWidth (e : Encoder) : Nat :=
  if 1 <<< e.width < e.count + 1 + e.early ∧ e.width < maxWidth then e.width + 1 else e.width

/-- The decoder has read all codes that the encoder has written; `table` has the words of the
encoder, `word` is the one it is reading. -/
structure InStep (e : Encoder) (d : Decoder) (table : Array Bytes) (word : Bytes) : Prop where
  early : d.early = e.early
  early_le : e.early ≤ 1
  width : d.width = e.width
  nine_le : 9 ≤ e.width
  width_le : e.width ≤ maxWidth
  count : e.count = firstCode + table.size
  fits : e.count ≤ 1 <<< e.width
  children : ∀ parent b code, e.children[(parent, b)]? = some code →
    ∃ w, wordIn table parent = some w ∧ wordIn table code = some (b :: w)
  current : ∃ code, e.current = some code ∧ wordIn table code = some word
  ne_nil : word ≠ []
  behind : (d.previous = none ∧ table = #[] ∧ d.words = #[]) ∨
    ∃ previous first, d.previous = some previous ∧ previous ≠ [] ∧ word.getLast? = some first ∧
      table = d.words.push (first :: previous)

theorem shift_le_shift {m n : Nat} (h : m ≤ n) : 1 <<< m ≤ 1 <<< n := by
  rw [Nat.one_shiftLeft, Nat.one_shiftLeft]
  exact Nat.pow_le_pow_right (by decide) h

theorem shift_succ (n : Nat) : 1 <<< (n + 1) = 2 * 1 <<< n := by
  rw [Nat.one_shiftLeft, Nat.one_shiftLeft, Nat.pow_succ, Nat.mul_comm]

/-- A word that the decoder is about to learn is read from the one before. -/
theorem nextWord?_eq {d : Decoder} {code : Nat} {previous word : Bytes} {first : UInt8}
    (hroom : d.count < 1 <<< maxWidth) (hne : previous ≠ []) (hfirst : word.getLast? = some first)
    (hcode : wordIn (d.words.push (first :: previous)) code = some word) :
    d.nextWord? previous code = some word := by
  unfold Decoder.nextWord?
  by_cases hlast : code = d.count
  · have hnew : word = first :: previous := by
      have hend := wordIn_push_last d.words (first :: previous)
      rw [hlast] at hcode
      exact Option.some.inj (hcode.symm.trans hend)
    have hgetLast : previous.getLast? = some first := by
      rw [hnew, List.getLast?_cons_of_ne_nil hne] at hfirst
      exact hfirst
    rw [if_pos ⟨hlast, hroom⟩, hgetLast, hnew]
    rfl
  · rw [if_neg fun hboth => hlast hboth.1, word?_eq_wordIn]
    exact wordIn_of_push hcode hlast

/-- Learning a word brings the decoder to the width that the encoder takes next. -/
theorem learn_eq {e : Encoder} {d : Decoder} (hroom : d.count < 1 <<< maxWidth)
    (hearly : d.early = e.early) (hwidth : d.width = e.width) (hcount : e.count = d.count + 1)
    (word : Bytes) : (d.learn word).early = e.early ∧ (d.learn word).width = nextWidth e ∧
      (d.learn word).words = d.words.push word := by
  have hsplit : (d.limit ≤ d.count ∧ d.width < maxWidth) ↔
      (1 <<< e.width < e.count + 1 + e.early ∧ e.width < maxWidth) := by
    rw [Decoder.limit, hearly, hwidth, hcount]
    omega
  unfold Decoder.learn nextWidth
  rw [if_neg (Nat.not_le_of_lt hroom)]
  by_cases hwide : d.limit ≤ d.count ∧ d.width < maxWidth
  · rw [if_pos hwide, if_pos (hsplit.1 hwide), ← hwidth]
    exact ⟨hearly, rfl, rfl⟩
  · rw [if_neg hwide, if_neg (mt hsplit.2 hwide)]
    exact ⟨hearly, hwidth, rfl⟩

/-- The code of the current word is read as that word, and the decoder catches up. -/
theorem InStep.read {e : Encoder} {d : Decoder} {table : Array Bytes} {word : Bytes}
    (h : InStep e d table word) {code : Nat} (hcode : wordIn table code = some word) :
    ∃ d', d.read code = (d', .word word) ∧ d'.early = e.early ∧ d'.width = nextWidth e ∧
      d'.words = table ∧ d'.previous = some word := by
  obtain ⟨hclear, hend, hlt⟩ := code_of_wordIn hcode
  have hnine : 1 <<< 9 ≤ 1 <<< e.width := shift_le_shift h.nine_le
  have hfits := h.fits
  have hcount := h.count
  have hearly := h.early_le
  rcases h.behind with ⟨hprevious, htable, hwords⟩ |
    ⟨previous, first, hprevious, hne, hfirst, htable⟩
  · -- nothing is behind, right after a clear code
    have hword : d.word? code = some word := by
      rw [word?_eq_wordIn, hwords, ← htable]
      exact hcode
    have hsame : nextWidth e = e.width := by
      rw [htable] at hcount
      simp only [firstCode, Array.size_empty] at hcount
      exact if_neg fun hwide => by omega
    refine ⟨{ d with previous := some word }, ?_, h.early, ?_, ?_, rfl⟩
    · simp only [Decoder.read, hclear, hend, if_false, hprevious, hword]
    · rw [hsame]
      exact h.width
    · rw [htable]
      exact hwords
  · have hsize : e.count = d.count + 1 := by
      rw [hcount, htable, Array.size_push, Decoder.count]
      omega
    have hroom : d.count < 1 <<< maxWidth := by
      have htwelve : 1 <<< e.width ≤ 1 <<< maxWidth := shift_le_shift h.width_le
      omega
    rw [htable] at hcode ⊢
    have hnext := nextWord?_eq hroom hne hfirst hcode
    obtain ⟨hearly', hwidth', hwords'⟩ := learn_eq hroom h.early h.width hsize (first :: previous)
    refine ⟨{ d.learn (first :: previous) with previous := some word }, ?_, hearly', hwidth',
      hwords', rfl⟩
    simp only [Decoder.read, hclear, hend, if_false, hprevious, hnext, hfirst]

/-- The encoder after a code, with nothing held back. -/
def turned (e : Encoder) (code : Nat) (b : UInt8) : Encoder :=
  { e.learn code b with held := [], piece := #[], current := some b.toNat, width := nextWidth e }

theorem widen_turn {e : Encoder} (hheld : e.held = []) (hpiece : e.piece = #[]) (code : Nat)
    (b : UInt8) : (e.turn code b).widen (1 <<< e.width) =
      (turned e code b).behind (Bits.highFirst e.width code) := by
  obtain ⟨early, width, count, current, children, fanout, held, piece⟩ := e
  cases hheld
  cases hpiece
  simp only [Encoder.widen, nextWidth, turned, Encoder.behind, Encoder.turn, Encoder.emit,
    Encoder.learn, List.append_nil, List.nil_append]
  split <;> rfl

/-- A child that is recorded stands for its parent's word and one byte more, old or new. -/
theorem InStep.children_turned {e : Encoder} {d : Decoder} {table : Array Bytes} {word : Bytes}
    (h : InStep e d table word) {code : Nat} (hcode : wordIn table code = some word) (b : UInt8)
    {parent child : Nat} {b' : UInt8}
    (hchild : (turned e code b).children[(parent, b')]? = some child) :
    ∃ w, wordIn (table.push (b :: word)) parent = some w ∧
      wordIn (table.push (b :: word)) child = some (b' :: w) := by
  have hold (hchild : e.children[(parent, b')]? = some child) :
      ∃ w, wordIn (table.push (b :: word)) parent = some w ∧
        wordIn (table.push (b :: word)) child = some (b' :: w) := by
    obtain ⟨w, hparent, hword⟩ := h.children parent b' child hchild
    exact ⟨w, wordIn_push hparent _, wordIn_push hword _⟩
  have hnew : (turned e code b).children =
      if e.fanout.getD code 0 = 16 then e.children
      else e.children.insert (code, b) e.count := rfl
  rw [hnew] at hchild
  split at hchild
  next => exact hold hchild
  next =>
    rw [Std.HashMap.getElem?_insert] at hchild
    split at hchild
    next hkey =>
      have hkey' : (code, b) = (parent, b') := eq_of_beq hkey
      cases hkey'
      cases hchild
      refine ⟨word, wordIn_push hcode _, ?_⟩
      rw [h.count]
      exact wordIn_push_last table _
    next => exact hold hchild

/-- The word is numbered with its new continuation, and the next one begins. -/
theorem InStep.turn {e : Encoder} {d d' : Decoder} {table : Array Bytes} {word : Bytes}
    (h : InStep e d table word) {code : Nat} (hcode : wordIn table code = some word)
    (hearly : d'.early = e.early) (hwidth : d'.width = nextWidth e) (hwords : d'.words = table)
    (hprevious : d'.previous = some word) {b : UInt8} (hroom : e.count + 1 ≤ 1 <<< maxWidth) :
    InStep (turned e code b) d' (table.push (b :: word)) [b] := by
  have hnine := h.nine_le
  have hlimit := h.width_le
  have hfits := h.fits
  have hdouble := shift_succ e.width
  have hlong : 1 <<< 9 ≤ 1 <<< e.width := shift_le_shift h.nine_le
  refine ⟨hearly, h.early_le, hwidth, ?_, ?_, ?_, ?_, ?_, ⟨b.toNat, rfl, wordIn_byte _ b⟩,
    List.cons_ne_nil b [], .inr ⟨word, b, hprevious, h.ne_nil, rfl, by rw [hwords]⟩⟩
  · show 9 ≤ nextWidth e
    unfold nextWidth
    split <;> omega
  · show nextWidth e ≤ maxWidth
    unfold nextWidth
    split <;> omega
  · show e.count + 1 = firstCode + (table.push (b :: word)).size
    rw [Array.size_push, h.count, Nat.add_assoc]
  · show e.count + 1 ≤ 1 <<< nextWidth e
    unfold nextWidth
    split
    next => omega
    next hnot =>
      by_cases hnarrow : e.width < maxWidth
      · have := not_and'.1 hnot hnarrow
        omega
      · have hfull : e.width = maxWidth := by omega
        rw [hfull]
        exact hroom
  · intro parent b' code' hchild
    exact h.children_turned hcode b hchild

/-- Right after a clear code, with one byte read. -/
theorem inStep_start {e : Encoder} {d : Decoder} {b : UInt8} (hearly : d.early = e.early)
    (hle : e.early ≤ 1) (hwidth : d.width = 9) (hwidth' : e.width = 9)
    (hwords : d.words = #[]) (hprevious : d.previous = none) (hcount : e.count = firstCode)
    (hchildren : e.children = {}) (hcurrent : e.current = some b.toNat) :
    InStep e d #[] [b] := by
  refine ⟨hearly, hle, hwidth.trans hwidth'.symm, ?_, ?_, hcount, ?_, ?_,
    ⟨b.toNat, hcurrent, wordIn_byte _ b⟩, List.cons_ne_nil b [], .inl ⟨hprevious, rfl, hwords⟩⟩
  · rw [hwidth']
  · rw [hwidth']
    decide
  · rw [hwidth', hcount]
    decide
  · intro parent b' code hchild
    rw [hchildren, Std.HashMap.getElem?_empty] at hchild
    cases hchild

/-- A code that was written is the first that is read. -/
theorem codes_code {d : Decoder} {code : Nat} (h : code < 1 <<< d.width) (bits : List Bool) :
    d.codes (Bits.highFirst d.width code ++ bits) =
      ⟨d.width, (d.read code).2⟩ :: if (d.read code).2.goesOn then (d.read code).1.codes bits else [] := by
  have hlength := Bits.length_highFirst d.width code
  rw [Nat.one_shiftLeft] at h
  have hfront : d.readFront (Bits.highFirst d.width code) = d.read code := by
    rw [Decoder.readFront, List.take_of_length_le (Nat.le_of_eq hlength), Bits.ofHighFirst_highFirst h]
  rw [Decoder.codes_append (Nat.le_of_eq hlength.symm), hfront,
    List.drop_of_length_le (Nat.le_of_eq hlength), List.nil_append]

theorem codes_end {d : Decoder} (h : 9 ≤ d.width) (bits : List Bool) :
    d.codes (Bits.highFirst d.width endCode ++ bits) = [⟨d.width, .finish⟩] := by
  have hwidth := shift_le_shift h
  have hlt : endCode < 1 <<< d.width := Nat.lt_of_lt_of_le (by decide : endCode < 1 <<< 9) hwidth
  have hread : d.read endCode = (d, .finish) := by
    rw [Decoder.read, if_neg (by decide), if_pos rfl]
  rw [codes_code hlt, hread]
  rfl

theorem codes_clear {d : Decoder} (h : 9 ≤ d.width) (bits : List Bool) :
    d.codes (Bits.highFirst d.width clearCode ++ bits) =
      ⟨d.width, .clear⟩ :: Decoder.codes { early := d.early } bits := by
  have hwidth := shift_le_shift h
  have hlt : clearCode < 1 <<< d.width :=
    Nat.lt_of_lt_of_le (by decide : clearCode < 1 <<< 9) hwidth
  have hread : d.read clearCode = ({ early := d.early }, .clear) := by
    rw [Decoder.read, if_pos rfl]
  rw [codes_code hlt, hread]
  rfl

/-- Part of a code is not a code. -/
theorem scan_part {d : Decoder} {code : Nat} {short : List Bool}
    (h : short <+: Bits.highFirst d.width code) (hne : short ≠ Bits.highFirst d.width code) :
    d.scan short = none := by
  have hlt := length_lt_of_prefix h hne
  rw [Bits.length_highFirst] at hlt
  exact Decoder.scan_of_short hlt

theorem delimits_end {d : Decoder} (h : 9 ≤ d.width) :
    Delimits d.scan (Bits.highFirst d.width endCode) [] :=
  ⟨fun bits => congrArg spell (codes_end h bits), fun _ => scan_part⟩

theorem delimits_clear {d : Decoder} (h : 9 ≤ d.width) {bits : List Bool} {out : Bytes}
    (hbits : Delimits (Decoder.scan { early := d.early }) bits out) :
    Delimits d.scan (Bits.highFirst d.width clearCode ++ bits) out := by
  refine hbits.prepend (f := id) (fun _ => scan_part) ?_
  intro data
  exact (congrArg spell (codes_clear h data)).trans Option.map_id_apply.symm

theorem delimits_word {d d' : Decoder} {code : Nat} {word : Bytes}
    (hcodes : ∀ bits, d.codes (Bits.highFirst d.width code ++ bits) =
      ⟨d.width, .word word⟩ :: d'.codes bits)
    {bits : List Bool} {out : Bytes} (hbits : Delimits d'.scan bits out) :
    Delimits d.scan (Bits.highFirst d.width code ++ bits) (word.reverse ++ out) := by
  refine hbits.prepend (f := (word.reverse ++ ·)) (fun _ => scan_part) ?_
  intro data
  exact congrArg spell (hcodes data)

/-- The word that the encoder is reading comes out, and the decoder goes on from there. -/
theorem InStep.codes_word {e : Encoder} {d : Decoder} {table : Array Bytes} {word : Bytes}
    (h : InStep e d table word) {code : Nat} (hcode : wordIn table code = some word) :
    ∃ d' : Decoder, d'.early = e.early ∧ d'.width = nextWidth e ∧ d'.words = table ∧
      d'.previous = some word ∧ ∀ bits, d.codes (Bits.highFirst d.width code ++ bits) =
        ⟨d.width, .word word⟩ :: d'.codes bits := by
  obtain ⟨d', hread, hd'⟩ := h.read hcode
  have hlt := (code_of_wordIn hcode).2.2
  have hfits := h.fits
  rw [h.count] at hfits
  refine ⟨d', hd'.1, hd'.2.1, hd'.2.2.1, hd'.2.2.2, ?_⟩
  intro bits
  have hshort : code < 1 <<< d.width := by
    rw [h.width]
    omega
  rw [codes_code hshort, hread]
  rfl

theorem le_nextWidth (e : Encoder) : e.width ≤ nextWidth e := by
  unfold nextWidth
  split
  · exact Nat.le_succ _
  · exact Nat.le_refl _

/-- The end code has the width that the decoder expects after the last word. -/
theorem closing_eq {e : Encoder} (hheld : e.held = []) {code : Nat}
    (hcurrent : e.current = some code) : e.closing =
      Bits.highFirst e.width code ++ Bits.highFirst (nextWidth e) endCode := by
  have hpos : 1 ≤ 1 <<< e.width := shift_le_shift (Nat.zero_le _)
  have hsame : (1 <<< e.width - 1 < e.count + e.early ∧ e.width < maxWidth) ↔
      (1 <<< e.width < e.count + 1 + e.early ∧ e.width < maxWidth) := by omega
  have hlast : e.last = (e.emit code).widen (1 <<< e.width - 1) := by
    rw [Encoder.last, hcurrent]
  rw [Encoder.closing, hlast]
  unfold Encoder.widen nextWidth
  by_cases hwide : 1 <<< e.width - 1 < e.count + e.early ∧ e.width < maxWidth
  · have hwide' : 1 <<< e.width - 1 < (e.emit code).count + (e.emit code).early ∧
        (e.emit code).width < maxWidth := hwide
    rw [if_pos hwide', if_pos (hsame.1 hwide)]
    simp only [Encoder.emit, hheld, List.nil_append]
  · have hwide' : ¬(1 <<< e.width - 1 < (e.emit code).count + (e.emit code).early ∧
        (e.emit code).width < maxWidth) := hwide
    rw [if_neg hwide', if_neg (mt hsame.2 hwide)]
    simp only [Encoder.emit, hheld, List.nil_append]

/-- Reading on in a known word writes nothing. -/
theorem InStep.known {e : Encoder} {d : Decoder} {table : Array Bytes} {word : Bytes}
    (h : InStep e d table word) {code child : Nat} {b : UInt8}
    (hcode : wordIn table code = some word) (hchild : e.children[(code, b)]? = some child) :
    InStep { e with current := some child } d table (b :: word) := by
  obtain ⟨w, hparent, hword⟩ := h.children code b child hchild
  have hw : w = word := Option.some.inj (hparent.symm.trans hcode)
  rw [hw] at hword
  refine ⟨h.early, h.early_le, h.width, h.nine_le, h.width_le, h.count, h.fits, h.children,
    ⟨child, rfl, hword⟩, List.cons_ne_nil b word, ?_⟩
  rw [List.getLast?_cons_of_ne_nil h.ne_nil]
  exact h.behind

/-- A full table is cleared; the byte just read is kept. -/
def cleared (e : Encoder) : Encoder :=
  { e with held := [], piece := #[], width := 9, count := firstCode, children := {}, fanout := {} }

theorem clear_behind {e : Encoder} (hheld : e.held = []) (bits : List Bool)
    (h : 1 <<< maxWidth < e.count) : (e.behind bits).clearIfFull =
      (cleared e).behind (bits ++ Bits.highFirst e.width clearCode) := by
  have hfull : 1 <<< maxWidth < (e.behind bits).count := h
  rw [Encoder.clearIfFull, if_pos hfull]
  simp only [Encoder.emit, Encoder.behind, cleared, hheld, List.append_nil]

/-- How many words come before the encoder clears its table. -/
def wordsLeft (e : Encoder) : Nat := 1 <<< maxWidth + 1 - e.count

/-- All that is read from now on is what the encoder is given from now on, after the word that it is
reading; all of what it writes is needed for that, and clear codes are far apart. -/
theorem InStep.closing_spec {e : Encoder} {d : Decoder} {table : Array Bytes} {word : Bytes}
    (h : InStep e d table word) (hheld : e.held = []) (hpiece : e.piece = #[]) (data : Bytes) :
    Delimits d.scan (e.extendAll data).closing (word.reverse ++ data) ∧
      Spaced (wordsLeft e) (d.codes (e.extendAll data).closing) := by
  induction data generalizing e d table word with
  | nil =>
    obtain ⟨code, hcurrent, hcode⟩ := h.current
    obtain ⟨d', -, hwidth, -, -, hcodes⟩ := h.codes_word hcode
    have hnine : 9 ≤ d'.width := by
      rw [hwidth]
      exact Nat.le_trans h.nine_le (le_nextWidth e)
    have hend := codes_end hnine []
    rw [List.append_nil] at hend
    show Delimits d.scan e.closing _ ∧ Spaced _ (d.codes e.closing)
    rw [closing_eq hheld hcurrent, ← hwidth, ← h.width, hcodes, hend]
    exact ⟨delimits_word hcodes (delimits_end hnine), rfl⟩
  | cons b data ih =>
    show Delimits d.scan ((e.extend b).extendAll data).closing _ ∧
      Spaced _ (d.codes ((e.extend b).extendAll data).closing)
    obtain ⟨code, hcurrent, hcode⟩ := h.current
    cases hchild : e.children[(code, b)]? with
    | some child =>
      have hknown := ih (h.known hcode hchild) hheld hpiece
      rw [Encoder.extend_of_known hcurrent hchild]
      rwa [List.reverse_cons, List.append_assoc] at hknown
    | none =>
      obtain ⟨d', hearly, hwidth, hwords, hprevious, hcodes⟩ := h.codes_word hcode
      rw [Encoder.extend_of_new hcurrent hchild, widen_turn hheld hpiece]
      by_cases hfull : 1 <<< maxWidth < (turned e code b).count
      · -- the next code has no number: the decoder reads a clear code first
        have hnine : 9 ≤ d'.width := by
          rw [hwidth]
          exact Nat.le_trans h.nine_le (le_nextWidth e)
        have hstart : InStep (cleared (turned e code b)) { early := d'.early } #[] [b] :=
          inStep_start hearly h.early_le rfl rfl rfl rfl rfl rfl rfl
        have hsame : (turned e code b).width = d'.width := hwidth.symm
        obtain ⟨hdelimits, hspaced⟩ := ih hstart rfl rfl
        rw [clear_behind rfl _ hfull, Encoder.extendAll_behind, Encoder.closing_behind,
          List.append_assoc, hsame, ← h.width, hcodes, codes_clear hnine]
        refine ⟨delimits_word hcodes (delimits_clear hnine hdelimits), ?_, ?_⟩
        · have hcount : (turned e code b).count = e.count + 1 := rfl
          unfold wordsLeft
          omega
        · exact hspaced.mono (by decide : 7 ≤ 1 <<< maxWidth + 1 - firstCode)
      · have hroom : e.count + 1 ≤ 1 <<< maxWidth := Nat.le_of_not_lt hfull
        have hkept : ((turned e code b).behind (Bits.highFirst e.width code)).clearIfFull =
            (turned e code b).behind (Bits.highFirst e.width code) := if_neg hfull
        have hturn := h.turn hcode hearly hwidth hwords hprevious (b := b) hroom
        obtain ⟨hdelimits, hspaced⟩ := ih hturn rfl rfl
        rw [hkept, Encoder.extendAll_behind, Encoder.closing_behind, ← h.width, hcodes]
        exact ⟨delimits_word hcodes hdelimits, hspaced⟩

/-- Scanning reads back what an encoder writes from the start. -/
theorem closing_create (earlyChange : Bool) (data : Bytes) :
    Delimits (Decoder.create earlyChange).scan
        ((Encoder.create earlyChange).extendAll data).closing data ∧
      Spaced 0 ((Decoder.create earlyChange).codes
        ((Encoder.create earlyChange).extendAll data).closing) := by
  obtain ⟨early, hearly⟩ : ∃ early, early = if earlyChange then 1 else 0 := ⟨_, rfl⟩
  have hle : early ≤ 1 := by
    rw [hearly]
    cases earlyChange <;> decide
  have hfresh : Encoder.create earlyChange =
      ({ early } : Encoder).behind (Bits.highFirst 9 clearCode) := by
    rw [hearly]
    rfl
  have hdecoder : Decoder.create earlyChange = { early } := by rw [hearly, Decoder.create]
  have hclear (bits : List Bool) : Decoder.codes { early } (Bits.highFirst 9 clearCode ++ bits) =
      ⟨9, .clear⟩ :: Decoder.codes { early } bits := codes_clear (d := { early }) (Nat.le_refl 9) bits
  rw [hfresh, hdecoder, Encoder.extendAll_behind, Encoder.closing_behind, hclear]
  cases data with
  | nil =>
    have hend := codes_end (d := { early }) (Nat.le_refl 9) []
    rw [List.append_nil] at hend
    refine ⟨delimits_clear (d := { early }) (Nat.le_refl 9)
      (delimits_end (d := { early }) (Nat.le_refl 9)), rfl, ?_⟩
    show Spaced 7 (Decoder.codes { early } (Bits.highFirst 9 endCode))
    rw [hend]
    rfl
  | cons b data =>
    have hstart : InStep { early, current := some b.toNat } { early } #[] [b] :=
      inStep_start rfl hle rfl rfl rfl rfl rfl rfl rfl
    obtain ⟨hdelimits, hspaced⟩ := hstart.closing_spec rfl rfl data
    exact ⟨delimits_clear (d := { early }) (Nat.le_refl 9) hdelimits, rfl,
      hspaced.mono (by decide : 7 ≤ 1 <<< maxWidth + 1 - firstCode)⟩

/-- The last byte, too, is needed: it has the end of the end code. -/
theorem delimits_ofBytes_encoded (earlyChange : Bool) (data : Bytes) :
    Delimits (fun out => (Decoder.create earlyChange).scan (Bits.ofBytes .highFirst out))
      ((Encoder.create earlyChange).encoded data) data := by
  obtain ⟨zeros, hbits, hzeros⟩ := Bits.ofBytes_packAll .highFirst
    (((Encoder.create earlyChange).extendAll data).closing)
  exact (closing_create earlyChange data).1.ofBytes hbits hzeros

theorem scan_ofBytes_encoded (earlyChange : Bool) (data : Bytes) :
    (Decoder.create earlyChange).scan
      (Bits.ofBytes .highFirst ((Encoder.create earlyChange).encoded data)) = some data :=
  (delimits_ofBytes_encoded earlyChange data).eq_some

/-- What the encoder writes for a piece of data is calm. -/
theorem isCalm_encoded (earlyChange : Bool) {data : Bytes} (h : data.length ≤ Reader.pieceLength) :
    IsCalm ((Decoder.create earlyChange).codes
      (Bits.ofBytes .highFirst ((Encoder.create earlyChange).encoded data))) := by
  obtain ⟨zeros, hbits, -⟩ := Bits.ofBytes_packAll .highFirst
    (((Encoder.create earlyChange).extendAll data).closing)
  obtain ⟨hdelimits, hspaced⟩ := closing_create earlyChange data
  have hscan : (Decoder.create earlyChange).scan
      ((Encoder.create earlyChange).extendAll data).closing = some data := hdelimits.eq_some
  have hsane : (Decoder.create earlyChange).IsSane := Decoder.isSane_start _
  have hcalm := isCalm_of_spaced hsane hspaced hscan h
  rw [Encoder.encoded, hbits]
  exact hcalm.append (by rw [hscan]; exact Option.some_ne_none data) zeros

/-- Parameters that name the early-change setting and no predictor. The setting is 1 by default, and
off only if it is 0. -/
def Names (earlyChange : Bool) (parms : Option DecodeParms) : Prop :=
  Predictor.IsAbsent parms ∧
    match parms with
    | none => earlyChange = true
    | some parms => ∃ n, parms.intD "EarlyChange" 1 = .ok n ∧ earlyChange = decide (n ≠ 0)

theorem settings_of_names {earlyChange : Bool} {parms : Option DecodeParms}
    (h : Names earlyChange parms) : settings parms = .ok (earlyChange, none) := by
  obtain ⟨hpredictor, hearly⟩ := h
  have hnone := Predictor.ofParms_of_absent hpredictor
  cases parms with
  | none =>
    have htrue : earlyChange = true := hearly
    rw [settings, hnone, htrue]
    rfl
  | some parms =>
    obtain ⟨n, hint, rfl⟩ := hearly
    rw [settings, hnone, hint]
    rfl

theorem encode_computes {c : Lzw} (hc : c.IsEncoding) :
    (Codec.coder .encode).Computes (.lzw c) (encoded c) :=
  (encoding_computes hc).embed (Codec.coder .encode) Codec.lzw (fun _ _ => rfl) fun _ => rfl

theorem decode_computesOf {c : Lzw} {data : Bytes} (hc : c.IsDecoding data) :
    (Codec.coder .decode).ComputesOf (.lzw c) data (decoded c data) := fun blocks hblocks =>
  (Coder.session_embed (Codec.coder .decode) Codec.lzw (fun _ _ => rfl) (fun _ => rfl) blocks c).trans
    (decoding_computesOf hc blocks hblocks)

theorem encode_makes (c : Lzw) (ctx : CryptoContext) (parms : Option DecodeParms) :
    (Codec.lzw c).Makes .encode ctx parms fun data =>
      some ((Encoder.create c.earlyChange).encoded data) :=
  Codec.makes_of_quiet rfl (encode_computes (isEncoding_beginEncode c))

/-- A session whose parameters have been read makes what the predictor makes of what the codes stand
for, if they are calm. -/
theorem decode_makesOf_of_settings (c : Lzw) {parms : Option DecodeParms} {early : Bool}
    {predictor : Option Predictor} (h : settings parms = .ok (early, predictor))
    (ctx : CryptoContext) {data : Bytes} (hcalm : IsCalmData parms data) :
    (Codec.lzw c).MakesOf .decode ctx parms data
      (((Decoder.create early).scan (Bits.ofBytes .highFirst data)).bind
        (Predictor.postPass predictor)) := by
  obtain ⟨s, hs⟩ : ∃ s : Lzw, s = { c with
    predictor, reader := some (.create early), finished := false } := ⟨_, rfl⟩
  have hbegin : c.beginDecode parms = .quiet s := by
    rw [beginDecode, h, hs]
  have hdecoding : s.IsDecoding data := by
    have hfault : (c.beginDecode parms).fault = none := by rw [hbegin, Step.fault_quiet]
    have hstart := isDecoding_beginDecode hcalm hfault
    rwa [hbegin] at hstart
  have hdecoded : decoded s data =
      ((Decoder.create early).scan (Bits.ofBytes .highFirst data)).bind
        (Predictor.postPass predictor) := by
    rw [decoded_of_reading (by rw [hs]) (r := .create early) (by rw [hs]), hs]
    refine (Predictor.inStore_quiet _ predictor).trans ?_
    rw [Reader.front, List.append_nil]
    rfl
  have hcomputes := decode_computesOf hdecoding
  rw [hdecoded] at hcomputes
  refine Codec.makesOf_of_quiet (s := .lzw s) ?_ hcomputes
  rw [Codec.start, Codec.beginDecode, hbegin]
  rfl

theorem decode_makesOf (c : Lzw) {earlyChange : Bool} {parms : Option DecodeParms}
    (h : Names earlyChange parms) (ctx : CryptoContext) {data : Bytes}
    (hcalm : IsCalmData parms data) :
    (Codec.lzw c).MakesOf .decode ctx parms data
      ((Decoder.create earlyChange).scan (Bits.ofBytes .highFirst data)) := by
  intro blocks hblocks
  rw [decode_makesOf_of_settings c (settings_of_names h) ctx hcalm blocks hblocks]
  exact Predictor.bind_postPass_none _

/-- What was encoded of a piece of data is calm for a decoder with the same setting. -/
theorem isCalmData_encoded {earlyChange : Bool} {parms : Option DecodeParms}
    (h : Names earlyChange parms) {data : Bytes} (hshort : data.length ≤ Reader.pieceLength) :
    IsCalmData parms ((Encoder.create earlyChange).encoded data) := by
  intro early predictor hsettings
  rw [settings_of_names h] at hsettings
  cases hsettings
  exact isCalm_encoded earlyChange hshort

/-- Decoding what was encoded gives back the data in whatever blocks it comes, if what was encoded is
calm. It is for data of at most one piece. -/
theorem session_encode_decode (c c' : Lzw) {parms : Option DecodeParms}
    (h : Names c.earlyChange parms) (ctx ctx' : CryptoContext) (blocks : List Bytes) :
    ∃ out, ((Codec.lzw c).session .encode ctx none blocks).output? = some out ∧
      (blocks.flatten.length ≤ Reader.pieceLength → IsCalmData parms out) ∧
      (IsCalmData parms out → ∀ blocks' : List Bytes, blocks'.flatten = out →
        ((Codec.lzw c').session .decode ctx' parms blocks').output? = some blocks.flatten) := by
  refine ⟨_, encode_makes c ctx none blocks, isCalmData_encoded h, ?_⟩
  intro hcalm blocks' hblocks
  rw [decode_makesOf c' h ctx' hcalm blocks' hblocks]
  exact scan_ofBytes_encoded c.earlyChange blocks.flatten

theorem session_encode_decode_late :
    Names false (some (.ofList [("EarlyChange", .int 0)])) ∧
      ∃ out, ((Codec.lzw { earlyChange := false }).session .encode {} none
          [[7, 7], [], [7]]).output? = some out ∧
        ∀ blocks' : List Bytes, blocks'.flatten = out →
          ((Codec.lzw {}).session .decode {} (some (.ofList [("EarlyChange", .int 0)]))
            blocks').output? = some [7, 7, 7] := by
  have hnames : Names false (some (.ofList [("EarlyChange", .int 0)])) := ⟨rfl, 0, rfl, rfl⟩
  obtain ⟨out, hout, hcalm, hback⟩ :=
    session_encode_decode { earlyChange := false } {} hnames {} {} [[7, 7], [], [7]]
  exact ⟨hnames, out, hout, hback (hcalm (by decide))⟩

end Lzw
end PdfStream
