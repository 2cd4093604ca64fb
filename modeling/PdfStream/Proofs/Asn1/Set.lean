import Mathlib.Algebra.GroupWithZero.Nat
import PdfStream.Asn1.Der

/-!
Sets of elements. Encodings are ordered by their bytes, so a set has one encoding, whatever order its
elements come in; and reading that encoding gives all of them back.
-/
namespace PdfStream.Der

/-- A length takes at most four octets more than its first. -/
theorem length_lengthOctets_le {n : Nat} (h : n ≤ maxLength) : (lengthOctets n).length ≤ 5 := by
  have hwidth := width_le_four h
  unfold lengthOctets
  split
  · exact Nat.le_of_ble_eq_true rfl
  · rw [List.length_cons, Bytes.length_ofNat]
    omega

theorem length_lengthOctets_le_succ (n : Nat) : (lengthOctets n).length ≤ n + 1 := by
  have hwidth : Bytes.width n ≤ n := by
    unfold Bytes.width
    split
    next => exact Nat.zero_le n
    next hn =>
      have := Nat.log2_le_self n
      omega
  unfold lengthOctets
  split
  next => exact Nat.succ_pos n
  next =>
    rw [List.length_cons, Bytes.length_ofNat]
    exact Nat.succ_le_succ hwidth

namespace Element
variable {e e' : Element} {tag : UInt8} {parts parts' : List Element}

theorem length_encode (e : Element) :
    e.encode.length = (lengthOctets e.content.length).length + e.content.length + 1 := by
  rw [encode, List.length_cons, List.length_append]

theorem length_content_lt (e : Element) : e.content.length < e.encode.length := by
  rw [length_encode]
  omega

theorem length_encode_le (h : e.content.length ≤ maxLength) :
    e.encode.length ≤ e.content.length + 6 := by
  have hoctets := length_lengthOctets_le h
  rw [length_encode]
  omega

/-- However long the content is. -/
theorem length_encode_le_two_mul (e : Element) :
    e.encode.length ≤ 2 * e.content.length + 2 := by
  have hoctets := length_lengthOctets_le_succ e.content.length
  rw [length_encode]
  omega

theorem length_encode_of_short (h : e.content.length < 128) :
    e.encode.length = e.content.length + 2 := by
  rw [length_encode, lengthOctets, if_pos h, List.length_singleton]
  omega

theorem length_content_wrap_singleton (tag : UInt8) (e : Element) :
    (wrap tag [e]).content.length = e.encode.length := by
  rw [wrap, List.flatMap_singleton]

/-- What is inside an element is shorter. -/
theorem length_encode_lt_of_mem (h : e ∈ parts) (tag : UInt8) :
    e.encode.length < (wrap tag parts).encode.length := by
  have hcontent := length_content_lt (wrap tag parts)
  have hpart : e.encode.length ≤ (wrap tag parts).content.length := by
    obtain ⟨before, after, rfl⟩ := List.append_of_mem h
    simp only [wrap, List.flatMap_append, List.flatMap_cons, List.length_append]
    omega
  omega

theorem readable_of_length (htag : Tag.IsKnown e.tag) (h : e.encode.length ≤ maxLength) :
    e.Readable :=
  ⟨htag, lt_lengthBound (Nat.le_of_lt (Nat.lt_of_lt_of_le (length_content_lt e) h))⟩

theorem encode_injective (h : e.Readable) (h' : e'.Readable) (heq : e.encode = e'.encode) :
    e = e' := by
  have hread := read?_encode h.1 h.2 []
  rw [heq, read?_encode h'.1 h'.2 []] at hread
  simpa using hread.symm

theorem parts?_wrap (h : ∀ e ∈ parts, e.Readable) (tag : UInt8) :
    (wrap tag parts).parts? tag = some parts := by
  rw [parts?, wrap, content?_mk, Option.bind_some]
  exact readAll?_flatMap_encode h

theorem eq_wrap_of_parts? (h : e.parts? tag = some parts) : e = wrap tag parts := by
  obtain ⟨content, hcontent, hread⟩ := Option.bind_eq_some_iff.1 h
  unfold content? at hcontent
  split at hcontent
  next htag =>
    rw [wrap, ← eq_flatMap_of_readAll? hread, ← Option.some.inj hcontent, ← htag]
  next => cases hcontent

theorem wrap_injective (h : ∀ e ∈ parts, e.Readable) (h' : ∀ e ∈ parts', e.Readable)
    (heq : wrap tag parts = wrap tag parts') : parts = parts' := by
  have hparts := parts?_wrap h tag
  rw [heq, parts?_wrap h' tag] at hparts
  exact (Option.some.inj hparts).symm

theorem inOrder_perm (parts : List Element) : (inOrder parts).Perm parts :=
  List.mergeSort_perm _ _

theorem mem_inOrder : e ∈ inOrder parts ↔ e ∈ parts := (inOrder_perm parts).mem_iff

theorem pairwise_inOrder (parts : List Element) :
    (inOrder parts).Pairwise fun a b => ¬Precedes b a := by
  have htrans (a b c : Element) (hab : (!decide (Precedes b a)) = true)
      (hbc : (!decide (Precedes c b)) = true) : (!decide (Precedes c a)) = true := by
    simp only [Bool.not_eq_true', decide_eq_false_iff_not] at hab hbc ⊢
    exact List.le_trans hab hbc
  have htotal (a b : Element) : (!decide (Precedes b a) || !decide (Precedes a b)) = true := by
    by_cases hba : Precedes b a
    · have hab : ¬Precedes a b := List.lt_asymm hba
      simp [hab]
    · simp [hba]
  have hsorted := List.pairwise_mergeSort htrans htotal parts
  apply hsorted.imp
  intro a b hab
  simpa using hab

/-- No two readable elements are encoded alike, so all that are different have an order. -/
theorem precedes_of_not_precedes (h : e.Readable) (h' : e'.Readable) (hne : e ≠ e')
    (hnot : ¬Precedes e' e) : Precedes e e' := by
  apply Decidable.byContradiction
  intro hnot'
  exact hne (encode_injective h h' (List.le_antisymm hnot hnot'))

theorem pairwise_precedes_inOrder (h : ∀ e ∈ parts, e.Readable) (hnodup : parts.Nodup) :
    (inOrder parts).Pairwise Precedes := by
  have hdistinct : (inOrder parts).Nodup := (inOrder_perm parts).nodup_iff.2 hnodup
  apply ((pairwise_inOrder parts).and hdistinct).imp_of_mem
  intro a b ha hb hab
  exact precedes_of_not_precedes (h a (mem_inOrder.1 ha)) (h b (mem_inOrder.1 hb)) hab.2 hab.1

/-- The order in which the elements come does not show. -/
theorem inOrder_eq_of_perm (h : ∀ e ∈ parts, e.Readable) (hperm : parts.Perm parts') :
    inOrder parts = inOrder parts' := by
  apply @List.Perm.eq_of_pairwise _ fun a b => ¬Precedes b a
  · intro a b ha hb hab hba
    have hb' := hperm.mem_iff.2 (mem_inOrder.1 hb)
    exact encode_injective (h a (mem_inOrder.1 ha)) (h b hb') (List.le_antisymm hab hba)
  · exact pairwise_inOrder parts
  · exact pairwise_inOrder parts'
  · exact ((inOrder_perm parts).trans hperm).trans (inOrder_perm parts').symm

@[simp] theorem inOrder_singleton (e : Element) : inOrder [e] = [e] := by
  simp [inOrder]

theorem length_content_setOf (parts : List Element) :
    (setOf parts).content.length = (parts.map fun e => e.encode.length).sum := by
  rw [setOf, wrap, List.length_flatMap]
  exact ((inOrder_perm parts).map _).sum_nat

theorem inOrder_inOrder (h : ∀ e ∈ parts, e.Readable) :
    inOrder (inOrder parts) = inOrder parts :=
  (inOrder_eq_of_perm h (inOrder_perm parts).symm).symm

theorem setOf?_setOf (h : ∀ e ∈ parts, e.Readable) (hnodup : parts.Nodup) :
    (setOf parts).setOf? = some (inOrder parts) := by
  have hparts := parts?_wrap (fun e he => h e (mem_inOrder.1 he)) Tag.set
  have hstrict := pairwise_precedes_inOrder h hnodup
  simp only [setOf?, setOf, hparts, Option.bind_eq_bind, Option.bind_some, inOrder_inOrder h,
    hstrict, if_true]

end Element
end PdfStream.Der
