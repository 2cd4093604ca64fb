import PdfStream.Bytes

/-!
Distinguished encodings: a tag, the shortest form of the length, the content. Reading takes exactly
what writing makes.
-/
namespace PdfStream.Der

/-- The longest encoding in use. -/
def maxLength : Nat := 1 <<< 28 - 1

/-- No length has more than 126 digits: their count has seven bits, and that all of them are set is
reserved. -/
def lengthBound : Nat := 1 <<< (8 * 126)

namespace Tag

def boolean : UInt8 := 0x01
def integer : UInt8 := 0x02
def bitString : UInt8 := 0x03
def octetString : UInt8 := 0x04
def oid : UInt8 := 0x06
def utcTime : UInt8 := 0x17
def generalizedTime : UInt8 := 0x18
def sequence : UInt8 := 0x30
def set : UInt8 := 0x31

/-- The universal types that may occur. -/
def universal : List UInt8 :=
  [0x01, 0x02, 0x03, 0x04, 0x05, 0x06, 0x09, 0x0A, 0x0C, 0x12, 0x13, 0x14, 0x15, 0x16, 0x17, 0x18,
    0x1A, 0x1E, 0x30, 0x31]

/-- A universal type, or a number below 31 of another class. -/
def IsKnown (tag : UInt8) : Prop :=
  tag ∈ universal ∨ (0x40 ≤ tag ∧ tag &&& 0x1F ≠ 0x1F)

instance (tag : UInt8) : Decidable (IsKnown tag) := by unfold IsKnown; infer_instance

/-- A primitive element that a structure numbers itself. -/
def implicit (number : UInt8) : UInt8 := 0x80 ||| number

/-- An element wrapped in one that a structure numbers itself. -/
def explicit (number : UInt8) : UInt8 := 0xA0 ||| number

end Tag

/-- The octets of a length: the number itself below 128, else the count of its digits, then them. -/
def lengthOctets (n : Nat) : Bytes :=
  if n < 0x80 then [UInt8.ofNat n]
  else UInt8.ofNat (0x80 + Bytes.width n) :: Bytes.ofNat (Bytes.width n) n

/-- Reads a length in its one form. -/
def readLength? : Bytes → Option (Nat × Bytes)
  | [] => none
  | b :: rest =>
    if b < 0x80 then some (b.toNat, rest)
    else
      let digits := rest.take (b.toNat - 0x80)
      let n := Bytes.toNat digits
      if n < lengthBound ∧ lengthOctets n = b :: digits then
        some (n, rest.drop (b.toNat - 0x80))
      else none

theorem width_le_four {n : Nat} (h : n ≤ maxLength) : Bytes.width n ≤ 4 := by
  unfold Bytes.width
  split
  · omega
  · rename_i hn
    have : n.log2 < 28 := (Nat.log2_lt hn).2 (by unfold maxLength at h; omega)
    omega

theorem lt_lengthBound {n : Nat} (h : n ≤ maxLength) : n < lengthBound :=
  Nat.lt_of_le_of_lt h (by decide)

theorem width_lt {n : Nat} (h : n < lengthBound) : Bytes.width n < 127 := by
  unfold Bytes.width
  split
  · omega
  · rename_i hn
    rw [lengthBound, Nat.one_shiftLeft] at h
    have : n.log2 < 8 * 126 := (Nat.log2_lt hn).2 h
    omega

theorem readLength?_lengthOctets {n : Nat} (h : n < lengthBound) (rest : Bytes) :
    readLength? (lengthOctets n ++ rest) = some (n, rest) := by
  by_cases hn : n < 0x80
  · have hto : (UInt8.ofNat n).toNat = n := by simp [UInt8.toNat_ofNat']; omega
    have hlt : UInt8.ofNat n < 0x80 := UInt8.lt_iff_toNat_lt.2 (by simpa [hto] using hn)
    simp [lengthOctets, hn, readLength?, hlt, hto]
  · have hw := width_lt h
    have hto : (UInt8.ofNat (0x80 + Bytes.width n)).toNat = 0x80 + Bytes.width n := by
      simp [UInt8.toNat_ofNat']; omega
    have hge : ¬UInt8.ofNat (0x80 + Bytes.width n) < 0x80 := by
      rw [UInt8.lt_iff_toNat_lt, hto]; simp
    have hsub : 0x80 + Bytes.width n - 0x80 = Bytes.width n := by omega
    have htake : (Bytes.ofNat (Bytes.width n) n ++ rest).take (Bytes.width n) =
        Bytes.ofNat (Bytes.width n) n := List.take_left' (by simp)
    have hdrop : (Bytes.ofNat (Bytes.width n) n ++ rest).drop (Bytes.width n) = rest :=
      List.drop_left' (by simp)
    simp only [lengthOctets, hn, if_false, List.cons_append, readLength?, hge, hto, hsub, htake,
      hdrop, Bytes.toNat_ofNat_width, h, true_and, if_true]

theorem eq_of_readLength? {bytes rest : Bytes} {n : Nat}
    (h : readLength? bytes = some (n, rest)) : bytes = lengthOctets n ++ rest := by
  cases bytes with
  | nil => simp [readLength?] at h
  | cons b bytes =>
    simp only [readLength?] at h
    split at h
    · rename_i hb
      have hlt : b.toNat < 0x80 := UInt8.lt_iff_toNat_lt.1 hb
      simp only [Option.some.injEq, Prod.mk.injEq] at h
      simp [← h.1, ← h.2, lengthOctets, hlt]
    · split at h
      · rename_i hform
        simp only [Option.some.injEq, Prod.mk.injEq] at h
        rw [← h.1, ← h.2, hform.2, List.cons_append, List.take_append_drop]
      · simp at h

theorem length_le_of_readLength? {bytes rest : Bytes} {n : Nat}
    (h : readLength? bytes = some (n, rest)) : rest.length < bytes.length := by
  cases bytes with
  | nil => simp [readLength?] at h
  | cons b bytes =>
    simp only [readLength?] at h
    split at h
    · simp only [Option.some.injEq, Prod.mk.injEq] at h
      simp [h.2]
    · split at h
      · simp only [Option.some.injEq, Prod.mk.injEq] at h
        simp only [← h.2, List.length_drop, List.length_cons]
        omega
      · simp at h

structure Element where
  tag : UInt8
  content : Bytes
  deriving DecidableEq, Repr

namespace Element

def encode (e : Element) : Bytes :=
  e.tag :: (lengthOctets e.content.length ++ e.content)

/-- The element in front, and what follows it. -/
def read? : Bytes → Option (Element × Bytes)
  | [] => none
  | tag :: rest =>
    match readLength? rest with
    | none => none
    | some (n, rest) =>
      if Tag.IsKnown tag ∧ n ≤ rest.length then some (⟨tag, rest.take n⟩, rest.drop n) else none

theorem read?_encode {e : Element} (htag : Tag.IsKnown e.tag) (h : e.content.length < lengthBound)
    (rest : Bytes) : read? (e.encode ++ rest) = some (e, rest) := by
  simp [encode, read?, readLength?_lengthOctets h, htag]

theorem eq_of_read? {bytes rest : Bytes} {e : Element} (h : read? bytes = some (e, rest)) :
    bytes = e.encode ++ rest := by
  cases bytes with
  | nil => simp [read?] at h
  | cons tag bytes =>
    simp only [read?] at h
    split at h
    · simp at h
    · rename_i n tail hlen
      split at h
      · rename_i hn
        simp only [Option.some.injEq, Prod.mk.injEq] at h
        have htake : (tail.take n).length = n := by simp [hn.2]
        rw [← h.1, ← h.2, eq_of_readLength? hlen]
        simp only [encode, htake, List.cons_append, List.append_assoc, List.take_append_drop]
      · simp at h

theorem length_lt_of_read? {bytes rest : Bytes} {e : Element}
    (h : read? bytes = some (e, rest)) : rest.length < bytes.length := by
  cases bytes with
  | nil => simp [read?] at h
  | cons tag bytes =>
    simp only [read?] at h
    split at h
    · simp at h
    · rename_i n tail hlen
      split at h
      · simp only [Option.some.injEq, Prod.mk.injEq] at h
        have := length_le_of_readLength? hlen
        simp only [← h.2, List.length_drop, List.length_cons]
        omega
      · simp at h

/-- The elements one after the other, to the end. -/
def readAll? (bytes : Bytes) : Option (List Element) :=
  if bytes = [] then some []
  else
    match h : read? bytes with
    | none => none
    | some (e, rest) =>
      have : rest.length < bytes.length := length_lt_of_read? h
      (readAll? rest).map (e :: ·)
termination_by bytes.length

/-- An element that reading can give. -/
def Readable (e : Element) : Prop := Tag.IsKnown e.tag ∧ e.content.length < lengthBound

@[simp] theorem readAll?_nil : readAll? [] = some [] := by simp [readAll?]

theorem readAll?_of_ne_nil {bytes : Bytes} (h : bytes ≠ []) :
    readAll? bytes = (read? bytes).bind fun (e, rest) => (readAll? rest).map (e :: ·) := by
  rw [readAll?, if_neg h]
  split <;> simp [*]

theorem readAll?_flatMap_encode {parts : List Element} (h : ∀ e ∈ parts, e.Readable) :
    readAll? (parts.flatMap encode) = some parts := by
  induction parts with
  | nil => simp
  | cons e parts ih =>
    have he := h e (by simp)
    rw [readAll?_of_ne_nil (by simp [encode]), List.flatMap_cons, read?_encode he.1 he.2]
    simp [ih fun x hx => h x (by simp [hx])]

theorem eq_flatMap_of_readAll? {bytes : Bytes} {parts : List Element}
    (h : readAll? bytes = some parts) : bytes = parts.flatMap encode := by
  induction parts generalizing bytes with
  | nil =>
    by_cases hb : bytes = []
    · simp [hb]
    · simp [readAll?_of_ne_nil hb, Option.bind_eq_some_iff] at h
  | cons e parts ih =>
    by_cases hb : bytes = []
    · simp [hb] at h
    · rw [readAll?_of_ne_nil hb] at h
      simp only [Option.bind_eq_some_iff, Option.map_eq_some_iff, List.cons.injEq] at h
      obtain ⟨⟨_, rest⟩, hread, tail, htail, rfl, rfl⟩ := h
      rw [List.flatMap_cons, ← ih htail]
      exact eq_of_read? hread

/-- One element and nothing after it. -/
def whole? (bytes : Bytes) : Option Element :=
  match read? bytes with
  | some (e, []) => some e
  | _ => none

theorem whole?_encode {e : Element} (h : e.Readable) : whole? e.encode = some e := by
  have hread : read? e.encode = some (e, []) := by
    simpa using read?_encode h.1 h.2 []
  rw [whole?, hread]

theorem eq_encode_of_whole? {bytes : Bytes} {e : Element} (h : whole? bytes = some e) :
    bytes = e.encode := by
  unfold whole? at h
  split at h
  · rename_i hread
    simp only [Option.some.injEq] at h
    simpa [h] using eq_of_read? hread
  · simp at h

/-- One element that is not too long to be in use, and nothing after it. -/
def ofBytes? (bytes : Bytes) : Option Element :=
  if bytes.length ≤ maxLength then whole? bytes else none

theorem ofBytes?_encode {e : Element} (htag : Tag.IsKnown e.tag)
    (h : e.encode.length ≤ maxLength) : ofBytes? e.encode = some e := by
  have hcontent : e.content.length ≤ maxLength := by
    simp only [encode, List.length_cons, List.length_append] at h
    omega
  rw [ofBytes?, if_pos h]
  exact whole?_encode ⟨htag, lt_lengthBound hcontent⟩

/-- The content, under the expected tag. -/
def content? (e : Element) (tag : UInt8) : Option Bytes :=
  if e.tag = tag then some e.content else none

@[simp] theorem content?_mk (tag : UInt8) (content : Bytes) :
    (Element.mk tag content).content? tag = some content := by
  simp [content?]

/-- The elements inside, under the expected tag. -/
def parts? (e : Element) (tag : UInt8) : Option (List Element) :=
  (e.content? tag).bind readAll?

/-- Elements inside another. -/
def wrap (tag : UInt8) (parts : List Element) : Element :=
  ⟨tag, parts.flatMap encode⟩

def sequence (parts : List Element) : Element := wrap Tag.sequence parts

def sequence? (e : Element) : Option (List Element) := e.parts? Tag.sequence

/-- Encodings in order of their bytes. -/
def Precedes (a b : Element) : Prop := a.encode < b.encode

instance (a b : Element) : Decidable (Precedes a b) := by unfold Precedes; infer_instance

def inOrder (parts : List Element) : List Element :=
  parts.mergeSort fun a b => !decide (Precedes b a)

/-- A set of elements, written in ascending order. -/
def setOf (parts : List Element) : Element := wrap Tag.set (inOrder parts)

/-- The elements of a set, in ascending order whatever order they stand in. None may stand twice. -/
def setOf? (e : Element) : Option (List Element) := do
  let parts := inOrder (← e.parts? Tag.set)
  if parts.Pairwise Precedes then some parts else none

end Element
end PdfStream.Der
