import Mathlib.Algebra.Order.BigOperators.Group.List
import Mathlib.Algebra.Order.Ring.Nat
import Mathlib.Data.Nat.Log
import PdfStream.Asn1.Value
import PdfStream.Proofs.Asn1.Set
import PdfStream.Proofs.Bytes

/-!
Numbers as elements. Each has one form, and a smaller number no longer one; so a list of numbers can
be read from the sequence that it is written to.
-/
namespace PdfStream.Der

theorem toNat_unsignedOctets (n : Nat) : Bytes.toNat (unsignedOctets n) = n := by
  apply Bytes.toNat_ofNat_of_lt
  have hbits : n.log2 + 1 ≤ 8 * ((n.log2 + 1) / 8 + 1) := by omega
  calc n < 2 ^ (n.log2 + 1) := Nat.lt_log2_self
    _ ≤ 2 ^ (8 * ((n.log2 + 1) / 8 + 1)) := Nat.pow_le_pow_right Nat.two_pos hbits
    _ = 256 ^ ((n.log2 + 1) / 8 + 1) := Nat.pow_mul 2 8 _

theorem length_unsignedOctets_le {m n : Nat} (h : m ≤ n) :
    (unsignedOctets m).length ≤ (unsignedOctets n).length := by
  have hbits : m.log2 ≤ n.log2 := by
    rw [Nat.log2_eq_log_two, Nat.log2_eq_log_two]
    exact Nat.log_mono_right h
  rw [unsignedOctets, unsignedOctets, Bytes.length_ofNat, Bytes.length_ofNat]
  omega

namespace Element

@[simp] theorem nat?_ofNat (n : Nat) : (ofNat n).nat? = some n := by
  simp [nat?, ofNat, toNat_unsignedOctets]

theorem ofNat_injective : Function.Injective ofNat := by
  intro m n h
  have hread := nat?_ofNat m
  rw [h, nat?_ofNat] at hread
  exact (Option.some.inj hread).symm

variable {ns : List Nat}

theorem mapM_nat?_map_ofNat (ns : List Nat) : (ns.map ofNat).mapM nat? = some ns := by
  induction ns with
  | nil => rfl
  | cons n ns ih => simp [List.mapM_cons, ih]

theorem eq_map_ofNat_of_mapM {parts : List Element} (h : parts.mapM nat? = some ns) :
    parts = ns.map ofNat := by
  induction parts generalizing ns with
  | nil =>
    cases h
    rfl
  | cons e parts ih =>
    simp only [List.mapM_cons, Option.bind_eq_bind, Option.bind_eq_some_iff, Option.pure_def,
      Option.some.injEq] at h
    obtain ⟨n, hn, rest, hrest, rfl⟩ := h
    rw [List.map_cons, ← ih hrest, eq_ofNat_of_nat? hn]

theorem length_content_wrap_le {parts : List Element} {limit : Nat}
    (h : ∀ e ∈ parts, e.encode.length ≤ limit) (tag : UInt8) :
    (wrap tag parts).content.length ≤ parts.length * limit := by
  have hsizes : ∀ size ∈ parts.map fun e => e.encode.length, size ≤ limit := by
    intro size hsize
    obtain ⟨e, he, rfl⟩ := List.mem_map.1 hsize
    exact h e he
  have hsum := List.sum_le_card_nsmul _ _ hsizes
  rwa [List.length_map, Nat.nsmul_eq_mul, ← List.length_flatMap] at hsum

/-- Numbers that are short enough, and not too many of them, can be read from their sequence. -/
theorem readable_map_ofNat {limit : Nat} (hroom : ns.length * (2 * limit + 2) < lengthBound)
    (h : ∀ n ∈ ns, (unsignedOctets n).length ≤ limit) :
    (∀ e ∈ ns.map ofNat, e.Readable) ∧ (Element.sequence (ns.map ofNat)).Readable := by
  have hshort : ∀ e ∈ ns.map ofNat, e.content.length ≤ limit := by
    intro e he
    obtain ⟨n, hn, rfl⟩ := List.mem_map.1 he
    exact h n hn
  have hencode : ∀ e ∈ ns.map ofNat, e.encode.length ≤ 2 * limit + 2 := by
    intro e he
    have hlength := length_encode_le_two_mul e
    have hcontent := hshort e he
    omega
  constructor
  · intro e he
    obtain ⟨n, hn, rfl⟩ := List.mem_map.1 he
    have hcontent := hshort _ he
    have hone := Nat.le_mul_of_pos_left (2 * limit + 2) (List.length_pos_of_mem hn)
    exact ⟨(by decide : Tag.IsKnown Tag.integer), by omega⟩
  · have hcontent := length_content_wrap_le hencode Tag.sequence
    rw [List.length_map] at hcontent
    exact ⟨(by decide : Tag.IsKnown Tag.sequence), Nat.lt_of_le_of_lt hcontent hroom⟩

end Element
end PdfStream.Der
