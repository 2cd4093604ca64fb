import Mathlib.Algebra.Order.BigOperators.Group.List
import Mathlib.Algebra.Order.Ring.Nat
import Mathlib.Data.List.Nodup
import Mathlib.Data.List.Perm.Subperm
import PdfStream.Proofs.Asn1.Set
import PdfStream.Signing.SignedAttributes

/-!
The bytes that a signature covers. They say which attributes were collected and nothing else: not in
what order, and not what was refused on the way.
-/
namespace PdfStream
open Der

namespace Attribute

/-- The attributes that a document is signed with. -/
inductive IsMade : Attribute → Prop
  | contentType : IsMade contentType
  | messageDigest {digest : Bytes} {a : Attribute} (h : messageDigest digest = .ok a) : IsMade a
  | signingTime {time : Instant} {a : Attribute} (h : signingTime time = .ok a) : IsMade a
  | signingCertificate {algorithm : HashAlgorithm} {hash : Bytes} {a : Attribute}
    (h : signingCertificate algorithm hash = .ok a) : IsMade a

/-- The types that those attributes have. -/
def oidsInUse : List Oid :=
  [contentTypeOid, messageDigestOid, signingTimeOid, signingCertificateOid]

/-- One value, of a type that can be read. -/
def HasValue (a : Attribute) : Prop := ∃ value, a.values = [value] ∧ Tag.IsKnown value.tag

variable {a b : Attribute}

theorem eq_of_messageDigest {digest : Bytes} (h : messageDigest digest = .ok a) :
    a = single messageDigestOid (.ofOctets digest) := by
  unfold messageDigest at h
  split at h <;> cases h
  rfl

theorem eq_of_signingTime {time : Instant} (h : signingTime time = .ok a) :
    ∃ date, a = single signingTimeOid (Time.ofCivil date).element := by
  unfold signingTime at h
  split at h <;> cases h
  exact ⟨_, rfl⟩

theorem eq_of_signingCertificate {algorithm : HashAlgorithm} {hash : Bytes}
    (h : signingCertificate algorithm hash = .ok a) :
    ∃ oid : Oid, oid.body.length = 9 ∧ hash.length ≤ 64 ∧ a = single signingCertificateOid
      (.sequence [.sequence [certificateId algorithm oid hash]]) := by
  have hmade {expected : Nat} {oid : Oid} (hlength : algorithm.digestLength = .ok expected)
      (hoid : algorithm.oid = .ok oid) (hexpected : expected ≤ 64) (hbody : oid.body.length = 9) :
      ∃ oid : Oid, oid.body.length = 9 ∧ hash.length ≤ 64 ∧ a = single signingCertificateOid
        (.sequence [.sequence [certificateId algorithm oid hash]]) := by
    by_cases hhash : hash.length = expected
    · simp only [signingCertificate, hlength, hoid, hhash, bind, Except.bind, pure, Except.pure,
        ne_eq, not_true_eq_false, if_false] at h
      cases h
      exact ⟨oid, hbody, hhash ▸ hexpected, rfl⟩
    · simp [signingCertificate, hlength, hhash, bind, Except.bind, throw, throwThe,
        MonadExceptOf.throw] at h
  cases algorithm with
  | sha256 => exact hmade rfl rfl (by decide) (by decide)
  | sha384 => exact hmade rfl rfl (by decide) (by decide)
  | sha512 => exact hmade rfl rfl (by decide) (by decide)
  | unknown => cases h

theorem IsMade.hasValue (h : a.IsMade) : a.HasValue := by
  cases h with
  | contentType => exact ⟨_, rfl, by decide⟩
  | messageDigest h =>
    rw [eq_of_messageDigest h]
    exact ⟨_, rfl, (by decide : Tag.IsKnown Tag.octetString)⟩
  | signingTime h =>
    obtain ⟨date, rfl⟩ := eq_of_signingTime h
    refine ⟨_, rfl, ?_⟩
    show Tag.IsKnown (Time.tag (Time.ofCivil date).form)
    cases (Time.ofCivil date).form <;> decide
  | signingCertificate h =>
    obtain ⟨oid, -, -, rfl⟩ := eq_of_signingCertificate h
    exact ⟨_, rfl, (by decide : Tag.IsKnown Tag.sequence)⟩

theorem IsMade.oid_mem (h : a.IsMade) : a.oid ∈ oidsInUse := by
  cases h with
  | contentType => simp [Attribute.contentType, single, oidsInUse]
  | messageDigest h =>
    rw [eq_of_messageDigest h]
    simp [single, oidsInUse]
  | signingTime h =>
    obtain ⟨date, rfl⟩ := eq_of_signingTime h
    simp [single, oidsInUse]
  | signingCertificate h =>
    obtain ⟨oid, -, -, rfl⟩ := eq_of_signingCertificate h
    simp [single, oidsInUse]

theorem isKnown_element (a : Attribute) : Tag.IsKnown a.element.tag :=
  (by decide : Tag.IsKnown Tag.sequence)

theorem element_of_value {value : Element} (h : a.values = [value]) :
    a.element = .sequence [.ofOid a.oid, .wrap Tag.set [value]] := by
  rw [element, h, Element.setOf, Element.inOrder_singleton]

/-- Every part of an attribute that is not too long can be read back. -/
theorem element_injective (ha : a.HasValue) (hb : b.HasValue)
    (hlength : a.element.encode.length ≤ maxLength) (h : a.element = b.element) : a = b := by
  have hreadable {c : Attribute} {value : Element} (hc : c.values = [value])
      (htag : Tag.IsKnown value.tag) (hlength : c.element.encode.length ≤ maxLength) :
      (∀ e ∈ [Element.ofOid c.oid, .wrap Tag.set [value]], e.Readable) ∧ value.Readable := by
    rw [element_of_value hc] at hlength
    have hpart {e : Element} (he : e ∈ [Element.ofOid c.oid, .wrap Tag.set [value]]) :
        e.encode.length ≤ maxLength :=
      Nat.le_trans (Nat.le_of_lt (Element.length_encode_lt_of_mem he Tag.sequence)) hlength
    have hset := hpart (List.mem_cons_of_mem _ (List.mem_singleton_self _))
    have hvalue := Element.length_encode_lt_of_mem (List.mem_singleton_self value) Tag.set
    constructor
    · simp only [List.forall_mem_cons, List.not_mem_nil, false_implies, implies_true, and_true]
      constructor
      · exact Element.readable_of_length (by decide : Tag.IsKnown Tag.oid) (hpart (by simp))
      · exact Element.readable_of_length (by decide : Tag.IsKnown Tag.set) hset
    · exact Element.readable_of_length htag (by omega)
  obtain ⟨oid, values⟩ := a
  obtain ⟨oid', values'⟩ := b
  obtain ⟨value, hvalues, htag⟩ := ha
  obtain ⟨value', hvalues', htag'⟩ := hb
  cases hvalues
  cases hvalues'
  obtain ⟨hparts, hvalue⟩ := hreadable rfl htag hlength
  obtain ⟨hparts', hvalue'⟩ := hreadable rfl htag' (h ▸ hlength)
  rw [element_of_value rfl, element_of_value rfl] at h
  have hboth := Element.wrap_injective hparts hparts' h
  simp only [Element.ofOid, List.cons.injEq, Element.mk.injEq, true_and, and_true] at hboth
  have hsame : [value] = [value'] :=
    Element.wrap_injective (by simpa using hvalue) (by simpa using hvalue') hboth.2
  obtain ⟨body⟩ := oid
  cases hboth.1
  rw [hsame]

/-- What an attribute of this type can take up, if no digest comes near the longest encoding. -/
def room (oid : Oid) : Nat := if oid = messageDigestOid then maxLength - 480 else 102

theorem length_element_of_value {value : Element} (h : a.values = [value]) :
    a.element.content.length =
      (Element.ofOid a.oid).encode.length + (Element.wrap Tag.set [value]).encode.length := by
  rw [element_of_value h]
  simp [Element.sequence, Element.wrap]

theorem length_element_le {value : Element} (h : a.values = [value])
    (hoid : a.oid.body.length ≤ 11) (hvalue : value.content.length ≤ 83) :
    a.element.encode.length ≤ 102 := by
  have hname : (Element.ofOid a.oid).content.length ≤ 11 := hoid
  have hset := Element.length_content_wrap_singleton Tag.set value
  have hcontent := length_element_of_value h
  rw [Element.length_encode_of_short (by omega)] at hset
  rw [Element.length_encode_of_short (by omega),
    Element.length_encode_of_short (e := .wrap Tag.set [value]) (by omega)] at hcontent
  rw [Element.length_encode_of_short (by omega)]
  omega

theorem length_text_le (t : Time) : t.text.length ≤ 15 := by
  obtain ⟨form, date⟩ := t
  cases form <;> simp [Time.text, Time.parts, Time.twoDigits]

theorem length_certificateId_le (algorithm : HashAlgorithm) {oid : Oid} {hash : Bytes}
    (hoid : oid.body.length = 9) (hhash : hash.length ≤ 64) :
    (certificateId algorithm oid hash).encode.length ≤ 81 := by
  have hoctets : (Element.ofOctets hash).encode.length ≤ 66 := by
    have hcontent : (Element.ofOctets hash).content.length ≤ 64 := hhash
    rw [Element.length_encode_of_short (by omega)]
    omega
  have hnamed : (Element.sequence [.ofOid oid]).encode.length = 13 := by
    have hbody : (Element.ofOid oid).content.length = 9 := hoid
    have hcontent := Element.length_content_wrap_singleton Tag.sequence (.ofOid oid)
    rw [Element.length_encode_of_short (by omega), hbody] at hcontent
    have hshort : (Element.sequence [.ofOid oid]).content.length = 11 := hcontent
    rw [Element.length_encode_of_short (by omega), hshort]
  have hcontent : (certificateId algorithm oid hash).content.length ≤ 79 := by
    unfold certificateId
    split
    · simp only [Element.sequence, Element.wrap, List.nil_append, List.flatMap_singleton]
      omega
    · simp only [Element.sequence, Element.wrap, List.singleton_append, List.flatMap_cons,
        List.flatMap_nil, List.append_nil, List.length_append] at hnamed ⊢
      omega
  rw [Element.length_encode_of_short (by omega)]
  omega

theorem length_messageDigest_le {digest : Bytes} (h : digest.length + 512 ≤ maxLength) :
    (single messageDigestOid (.ofOctets digest)).element.encode.length ≤ digest.length + 29 := by
  have hoid : (Element.ofOid messageDigestOid).encode.length = 11 := by decide
  have hoctets : (Element.ofOctets digest).encode.length ≤ digest.length + 6 :=
    Element.length_encode_le (show digest.length ≤ maxLength by omega)
  have hset := Element.length_content_wrap_singleton Tag.set (.ofOctets digest)
  have hvalues := Element.length_encode_le (e := .wrap Tag.set [.ofOctets digest]) (by omega)
  have hcontent : (single messageDigestOid (.ofOctets digest)).element.content.length =
      (Element.ofOid messageDigestOid).encode.length +
        (Element.wrap Tag.set [.ofOctets digest]).encode.length := length_element_of_value rfl
  have hall := Element.length_encode_le
    (e := (single messageDigestOid (.ofOctets digest)).element) (by omega)
  omega

theorem IsMade.length_le (h : a.IsMade)
    (hdigest : ∀ digest, Attribute.messageDigest digest = .ok a →
      digest.length + 512 ≤ maxLength) : a.element.encode.length ≤ room a.oid := by
  cases h with
  | contentType =>
    have hvalues : Attribute.contentType.values = [.ofOid dataOid] := rfl
    exact length_element_le hvalues (by decide) (by decide)
  | messageDigest h =>
    have hlimit := hdigest _ h
    have hlength := length_messageDigest_le hlimit
    have hroom : room messageDigestOid = maxLength - 480 := if_pos rfl
    rw [eq_of_messageDigest h]
    show _ ≤ room messageDigestOid
    omega
  | signingTime h =>
    obtain ⟨date, rfl⟩ := eq_of_signingTime h
    have htext : (Time.ofCivil date).element.content.length ≤ 83 :=
      Nat.le_trans (length_text_le _) (by decide)
    exact length_element_le rfl (by decide : signingTimeOid.body.length ≤ 11) htext
  | @signingCertificate algorithm hash a h =>
    obtain ⟨oid, hoid, hhash, rfl⟩ := eq_of_signingCertificate h
    have hid := length_certificateId_le algorithm hoid hhash
    have hinner := Element.length_content_wrap_singleton Tag.sequence
      (certificateId algorithm oid hash)
    have houter := Element.length_content_wrap_singleton Tag.sequence
      (.wrap Tag.sequence [certificateId algorithm oid hash])
    rw [Element.length_encode_of_short (by omega)] at houter
    apply length_element_le rfl (by decide : signingCertificateOid.body.length ≤ 11)
    show (Element.wrap Tag.sequence
      [.wrap Tag.sequence [certificateId algorithm oid hash]]).content.length ≤ 83
    omega

end Attribute

namespace SignedAttributes

/-- The collection after an attribute was offered: with it, or as it was if it was refused. -/
def offer (s : SignedAttributes) (a : Attribute) : SignedAttributes :=
  match s.add a with
  | .ok s => s
  | .error _ => s

/-- What comes of offering attributes one after the other. -/
inductive Collected : SignedAttributes → Prop
  | empty : Collected {}
  | offer {s : SignedAttributes} (before : Collected s) {a : Attribute} (made : a.IsMade) :
    Collected (s.offer a)

variable {s t : SignedAttributes} {a : Attribute}

theorem add_of_mem (h : a.oid ∈ s.oids) : s.add a = .error (.usage (.attributePresent a.oid)) := by
  obtain ⟨b, hb, hoid⟩ := List.mem_map.1 h
  have hfound : (s.get? a.oid).isSome := by
    rw [get?, List.find?_isSome]
    exact ⟨b, hb, by simpa using hoid⟩
  obtain ⟨c, hc⟩ := Option.isSome_iff_exists.1 hfound
  rw [add, hc]

theorem add_of_not_mem (h : a.oid ∉ s.oids) : s.add a = .ok ⟨s.inOrder ++ [a]⟩ := by
  have hnone : s.get? a.oid = none := by
    rw [get?, List.find?_eq_none]
    intro b hb hoid
    exact h (List.mem_map.2 ⟨b, hb, by simpa using hoid⟩)
  rw [add, hnone]

theorem Collected.isMade (h : s.Collected) : ∀ a ∈ s.inOrder, a.IsMade := by
  induction h with
  | empty => exact fun a ha => absurd ha List.not_mem_nil
  | @offer s before a made ih =>
    unfold SignedAttributes.offer
    by_cases hmem : a.oid ∈ s.oids
    · rw [add_of_mem hmem]
      exact ih
    · rw [add_of_not_mem hmem]
      intro b hb
      rcases List.mem_append.1 hb with hold | hnew
      · exact ih b hold
      · rw [List.mem_singleton.1 hnew]
        exact made

theorem Collected.nodup_oids (h : s.Collected) : s.oids.Nodup := by
  induction h with
  | empty => exact List.nodup_nil
  | @offer s before a made ih =>
    unfold SignedAttributes.offer
    by_cases hmem : a.oid ∈ s.oids
    · rw [add_of_mem hmem]
      exact ih
    · rw [add_of_not_mem hmem, oids, List.map_append, List.nodup_append]
      refine ⟨ih, by simp, ?_⟩
      intro oid hold other hnew
      rw [List.map_singleton, List.mem_singleton] at hnew
      rintro rfl
      exact hmem (hnew ▸ hold)

/-- At most one attribute of each type, none larger than its type has room for. -/
theorem Collected.length_encode_le (h : s.Collected)
    (hdigest : ∀ digest, ∀ a ∈ s.inOrder, Attribute.messageDigest digest = .ok a →
      digest.length + 512 ≤ maxLength) : s.encode.length ≤ maxLength := by
  have hparts : (Element.setOf (s.inOrder.map Attribute.element)).content.length ≤
      (s.oids.map Attribute.room).sum := by
    rw [Element.length_content_setOf, oids, List.map_map, List.map_map]
    apply List.sum_le_sum
    intro a ha
    exact (h.isMade a ha).length_le fun digest hmade => hdigest digest a ha hmade
  have htypes : s.oids ⊆ Attribute.oidsInUse := by
    intro oid hoid
    obtain ⟨a, ha, rfl⟩ := List.mem_map.1 hoid
    exact (h.isMade a ha).oid_mem
  obtain ⟨some, hperm, hsublist⟩ := h.nodup_oids.subperm htypes
  have hroom : (s.oids.map Attribute.room).sum ≤ (Attribute.oidsInUse.map Attribute.room).sum := by
    rw [← (hperm.map Attribute.room).sum_nat]
    exact (hsublist.map _).sum_le_sum fun _ _ => Nat.zero_le _
  have hall : (Attribute.oidsInUse.map Attribute.room).sum + 174 = maxLength := by decide
  have hencode := Element.length_encode_le
    (e := .setOf (s.inOrder.map Attribute.element)) (by omega)
  show (Element.setOf (s.inOrder.map Attribute.element)).encode.length ≤ maxLength
  omega

theorem length_le_of_mem (h : s.encode.length ≤ maxLength) (ha : a ∈ s.inOrder) :
    a.element.encode.length ≤ maxLength := by
  have hmem := Element.mem_inOrder.2 (List.mem_map_of_mem (f := Attribute.element) ha)
  exact Nat.le_trans (Nat.le_of_lt (Element.length_encode_lt_of_mem hmem Tag.set)) h

theorem readable_of_mem (h : s.encode.length ≤ maxLength) :
    ∀ e ∈ s.inOrder.map Attribute.element, e.Readable := by
  intro e he
  obtain ⟨a, ha, rfl⟩ := List.mem_map.1 he
  exact Element.readable_of_length a.isKnown_element (length_le_of_mem h ha)

theorem Collected.nodup (h : s.Collected) : s.inOrder.Nodup := List.Nodup.of_map _ h.nodup_oids

theorem Collected.nodup_elements (hs : s.Collected) (h : s.encode.length ≤ maxLength) :
    (s.inOrder.map Attribute.element).Nodup := by
  apply List.Nodup.map_on _ hs.nodup
  intro a ha b hb heq
  exact Attribute.element_injective (hs.isMade a ha).hasValue (hs.isMade b hb).hasValue
    (length_le_of_mem h ha) heq

/-- Collections of the same attributes are encoded alike. -/
theorem Collected.encode_eq (hs : s.Collected) (ht : t.Collected)
    (h : s.encode.length ≤ maxLength) (hsame : ∀ a, a ∈ s.inOrder ↔ a ∈ t.inOrder) :
    s.encode = t.encode := by
  have hperm : s.inOrder.Perm t.inOrder :=
    (List.perm_ext_iff_of_nodup hs.nodup ht.nodup).2 hsame
  have hsorted := Element.inOrder_eq_of_perm (readable_of_mem h) (hperm.map Attribute.element)
  rw [encode, encode, Element.setOf, Element.setOf, hsorted]

/-- Each attribute can be told from the encoding. -/
theorem Collected.mem_of_encode_eq (hs : s.Collected) (ht : t.Collected)
    (h : s.encode.length ≤ maxLength) (heq : s.encode = t.encode) (ha : a ∈ s.inOrder) :
    a ∈ t.inOrder := by
  have h' : t.encode.length ≤ maxLength := heq ▸ h
  have htag : Tag.IsKnown Tag.set := by decide
  have hset := Element.encode_injective (Element.readable_of_length htag h)
    (Element.readable_of_length htag h') heq
  have hparts := Element.wrap_injective
    (fun e he => readable_of_mem h e (Element.mem_inOrder.1 he))
    (fun e he => readable_of_mem h' e (Element.mem_inOrder.1 he)) hset
  have hmem := Element.mem_inOrder.2 (List.mem_map_of_mem (f := Attribute.element) ha)
  rw [hparts] at hmem
  obtain ⟨b, hb, helement⟩ := List.mem_map.1 (Element.mem_inOrder.1 hmem)
  have hsame := Attribute.element_injective (hs.isMade a ha).hasValue (ht.isMade b hb).hasValue
    (length_le_of_mem h ha) helement.symm
  rwa [hsame]

theorem toDer_eq_ok_iff {der : Bytes} :
    s.toDer = .ok der ↔ s.encode.length ≤ maxLength ∧ s.encode = der := by
  unfold toDer
  split
  next h => simp [h]
  next h => simp [h]

/-- An attribute is refused exactly if one of its type is there already, which changes nothing. The
encoding, which there is unless it would be too long, is a set of the attributes in strictly ascending
order; and it is shared by exactly the collections of the same attributes. -/
theorem toDer_canonical (hs : s.Collected) :
    (∀ a : Attribute,
      a.oid ∈ s.oids ∧ s.add a = .error (.usage (.attributePresent a.oid)) ∧ s.offer a = s ∨
        a.oid ∉ s.oids ∧ s.add a = .ok ⟨s.inOrder ++ [a]⟩) ∧
      (s.encode.length ≤ maxLength ∨
          (∀ digest, ∀ a ∈ s.inOrder, Attribute.messageDigest digest = .ok a →
            digest.length + 512 ≤ maxLength) →
        ∃ der, s.toDer = .ok der) ∧
      ∀ der, s.toDer = .ok der →
        (∃ parts, der = (Element.wrap Tag.set parts).encode ∧
          parts.Pairwise Element.Precedes ∧ parts.Perm (s.inOrder.map Attribute.element) ∧
          (Element.ofBytes? der).bind Element.setOf? = some parts) ∧
        ∀ t : SignedAttributes, t.Collected →
          (t.toDer = .ok der ↔ ∀ a, a ∈ s.inOrder ↔ a ∈ t.inOrder) := by
  refine ⟨?_, ?_, ?_⟩
  · intro a
    by_cases hmem : a.oid ∈ s.oids
    · have hadd := add_of_mem hmem
      exact .inl ⟨hmem, hadd, by rw [offer, hadd]⟩
    · exact .inr ⟨hmem, add_of_not_mem hmem⟩
  · intro hshort
    have hlength : s.encode.length ≤ maxLength := hshort.elim id hs.length_encode_le
    exact ⟨s.encode, toDer_eq_ok_iff.2 ⟨hlength, rfl⟩⟩
  · intro der hder
    obtain ⟨hlength, rfl⟩ := toDer_eq_ok_iff.1 hder
    have hread := readable_of_mem hlength
    have hnodup := hs.nodup_elements hlength
    constructor
    · refine ⟨Element.inOrder (s.inOrder.map Attribute.element), rfl,
        Element.pairwise_precedes_inOrder hread hnodup, Element.inOrder_perm _, ?_⟩
      have htag : Tag.IsKnown Tag.set := by decide
      rw [encode, Element.ofBytes?_encode htag hlength, Option.bind_some]
      exact Element.setOf?_setOf hread hnodup
    · intro t ht
      constructor
      · intro hsame a
        obtain ⟨hlength', heq⟩ := toDer_eq_ok_iff.1 hsame
        constructor
        · exact hs.mem_of_encode_eq ht hlength heq.symm
        · exact ht.mem_of_encode_eq hs hlength' heq
      · intro hsame
        have heq := hs.encode_eq ht hlength hsame
        exact toDer_eq_ok_iff.2 ⟨heq ▸ hlength, heq.symm⟩

/-- Two attributes in either order, one of them offered twice. -/
theorem toDer_canonical_reordered :
    ((({} : SignedAttributes).offer .contentType).offer
        (.single Attribute.messageDigestOid (.ofOctets [7]))).Collected ∧
      ∃ der, ((({} : SignedAttributes).offer .contentType).offer
          (.single Attribute.messageDigestOid (.ofOctets [7]))).toDer = .ok der ∧
        (((({} : SignedAttributes).offer
          (.single Attribute.messageDigestOid (.ofOctets [7]))).offer .contentType).offer
            (.single Attribute.messageDigestOid (.ofOctets [7]))).toDer = .ok der := by
  have hmade : Attribute.messageDigest [7] =
      .ok (.single Attribute.messageDigestOid (.ofOctets [7])) := if_pos (by decide)
  have hdigest := Attribute.IsMade.messageDigest hmade
  have hs := (Collected.empty.offer .contentType).offer hdigest
  have ht := ((Collected.empty.offer hdigest).offer .contentType).offer hdigest
  obtain ⟨-, hsome, hcanonical⟩ := toDer_canonical hs
  obtain ⟨der, hder⟩ : ∃ der, SignedAttributes.toDer _ = .ok der := by
    apply hsome
    right
    intro digest a ha h
    rw [Attribute.eq_of_messageDigest h] at ha
    have hmem : Attribute.single Attribute.messageDigestOid (.ofOctets digest) ∈
        [.contentType, .single Attribute.messageDigestOid (.ofOctets [7])] := ha
    have hoids : Attribute.messageDigestOid ≠ Attribute.contentTypeOid := by decide
    have hsame : digest = [7] := by
      rcases List.mem_cons.1 hmem with hother | hown
      · exact absurd (congrArg Attribute.oid hother) hoids
      · simpa [Attribute.single, Element.ofOctets] using hown
    rw [hsame]
    decide
  refine ⟨hs, der, hder, ((hcanonical der hder).2 _ ht).2 ?_⟩
  intro a
  show a ∈ [Attribute.contentType, .single Attribute.messageDigestOid (.ofOctets [7])] ↔
    a ∈ [.single Attribute.messageDigestOid (.ofOctets [7]), Attribute.contentType]
  simp only [List.mem_cons, List.not_mem_nil, or_false]
  exact or_comm

end SignedAttributes
end PdfStream
