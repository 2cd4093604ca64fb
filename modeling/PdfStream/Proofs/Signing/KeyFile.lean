import PdfStream.Proofs.Asn1.Number
import PdfStream.Proofs.Modular
import PdfStream.Proofs.Signing.PrivateKey

/-!
Key files. What is read from one is written back, with the numbers that follow from the others
computed afresh; and what was written is read as the same key.
-/
namespace PdfStream.PrivateKey
open Der

/-- What a file says of the factors besides what they are: the private exponent modulo each of them
less one, and the inverse of the second modulo the first. Reading does not look at it. -/
structure Crt where
  exponent₁ : Nat
  exponent₂ : Nat
  coefficient : Nat

def numbers (key : PrivateKey) (crt : Crt) : List Nat :=
  [0, key.modulus, key.publicExponent, key.privateExponent, key.p, key.q,
    crt.exponent₁, crt.exponent₂, crt.coefficient]

def parts (key : PrivateKey) (crt : Crt) : List Element := (key.numbers crt).map Element.ofNat

def file (key : PrivateKey) (crt : Crt) : Bytes := (Element.sequence (key.parts crt)).encode

section
variable {key : PrivateKey} {der : Bytes} {crt crt' : Crt} {coefficient : Nat}

theorem toDer_eq_file (h : key.coefficient? = some coefficient) :
    key.toDer = .ok (key.file ⟨key.exponentAt key.p, key.exponentAt key.q, coefficient⟩) := by
  rw [toDer, h]
  rfl

theorem toDer_of_none (h : key.coefficient? = none) :
    key.toDer = .error (.cryptoEngine .privateKey) := by
  rw [toDer, h]

theorem ofElement?_sequence (h : ∀ e ∈ key.parts crt, e.Readable) :
    ofElement? (.sequence (key.parts crt)) = some key := by
  have hparts := Element.parts?_wrap h Tag.sequence
  have hnumbers := Element.mapM_nat?_map_ofNat (key.numbers crt)
  rw [ofElement?, Element.sequence, Element.sequence?, hparts]
  simp only [Option.bind_eq_bind, Option.bind_some, parts, hnumbers]
  rfl

/-- A key is read from its numbers only. -/
theorem eq_sequence_of_ofElement? {e : Element} (h : ofElement? e = some key) :
    ∃ crt, e = .sequence (key.parts crt) := by
  obtain ⟨parts, hparts, h⟩ := Option.bind_eq_some_iff.1 h
  obtain ⟨ns, hns, h⟩ := Option.bind_eq_some_iff.1 h
  have he : e = .sequence (ns.map Element.ofNat) := by
    rw [Element.sequence, ← Element.eq_map_ofNat_of_mapM hns]
    exact Element.eq_wrap_of_parts? hparts
  split at h
  next exponent₁ exponent₂ coefficient =>
    cases h
    exact ⟨⟨exponent₁, exponent₂, coefficient⟩, he⟩
  next => cases h

theorem exists_file_of_load (h : load der = .ok key) : ∃ crt, der = key.file crt := by
  unfold load at h
  split at h
  next loaded hread =>
    split at h
    next =>
      cases h
      obtain ⟨e, he, hkey⟩ := Option.bind_eq_some_iff.1 hread
      obtain ⟨crt, rfl⟩ := eq_sequence_of_ofElement? hkey
      exact ⟨crt, Element.eq_encode_of_whole? he⟩
    next => cases h
  next => cases h

/-- No number of the file is longer than a byte string can be. -/
def IsShort (key : PrivateKey) (crt : Crt) : Prop :=
  ∀ n ∈ key.numbers crt, (unsignedOctets n).length ≤ 1 <<< 64

theorem isShort_of_length (h : (key.file crt).length ≤ 1 <<< 64) : key.IsShort crt := by
  intro n hn
  have hmem : Element.ofNat n ∈ key.parts crt := List.mem_map_of_mem hn
  have hpart := Element.length_encode_lt_of_mem hmem Tag.sequence
  have hcontent : (unsignedOctets n).length < (Element.ofNat n).encode.length :=
    Element.length_content_lt (Element.ofNat n)
  exact Nat.le_trans (Nat.le_of_lt (Nat.lt_trans hcontent hpart)) h

namespace IsShort

theorem readable (h : key.IsShort crt) :
    (∀ e ∈ key.parts crt, e.Readable) ∧ (Element.sequence (key.parts crt)).Readable :=
  Element.readable_map_ofNat (by decide : 9 * (2 * 1 <<< 64 + 2) < lengthBound) h

/-- Numbers that follow from the others are no larger than these. -/
theorem of_le (h : key.IsShort crt) (hexponent₁ : crt'.exponent₁ ≤ key.privateExponent)
    (hexponent₂ : crt'.exponent₂ ≤ key.privateExponent) (hcoefficient : crt'.coefficient ≤ key.p) :
    key.IsShort crt' := by
  simp only [IsShort, numbers, List.forall_mem_cons] at h ⊢
  obtain ⟨hversion, hmodulus, hpublic, hprivate, hp, hq, -, -, -, hnil⟩ := h
  refine ⟨hversion, hmodulus, hpublic, hprivate, hp, hq, ?_, ?_, ?_, hnil⟩
  · exact (length_unsignedOctets_le hexponent₁).trans hprivate
  · exact (length_unsignedOctets_le hexponent₂).trans hprivate
  · exact (length_unsignedOctets_le hcoefficient).trans hp

theorem load_file (h : key.IsShort crt) (hkey : key.Consistent) :
    load (key.file crt) = .ok key := by
  have hread := ofElement?_sequence h.readable.1
  rw [load, file, Element.whole?_encode h.readable.2, Option.bind_some, hread]
  exact if_pos hkey

theorem file_inj (h : key.IsShort crt) (h' : key.IsShort crt') :
    key.file crt = key.file crt' ↔ crt = crt' := by
  constructor
  · intro heq
    have hsequence := Element.encode_injective h.readable.2 h'.readable.2 heq
    have hparts := Element.wrap_injective h.readable.1 h'.readable.1 hsequence
    have hnumbers := List.map_injective_iff.2 Element.ofNat_injective hparts
    obtain ⟨exponent₁, exponent₂, coefficient⟩ := crt
    cases hnumbers
    rfl
  · rintro rfl
    rfl

end IsShort

theorem Consistent.coefficient?_spec (h : key.Consistent)
    (hcoefficient : key.coefficient? = some coefficient) :
    coefficient < key.p ∧ key.q * coefficient ≡ 1 [MOD key.p] := by
  obtain ⟨-, -, -, -, -, hp, -⟩ := h
  have hpos := Nat.zero_lt_of_lt hp
  exact ⟨Modular.inverse?_lt hpos hcoefficient, Modular.mul_inverse? hpos hcoefficient⟩

theorem exists_coefficient (h : ∃ x, key.q * x ≡ 1 [MOD key.p]) :
    ∃ coefficient, key.coefficient? = some coefficient := by
  obtain ⟨x, hx⟩ := h
  exact Modular.exists_inverse? (Nat.coprime_of_mul_modEq_one x hx)

end

/-- A key is written exactly if its second factor has an inverse modulo the first. It is then read
back, and written to the same bytes again; and these are the bytes that it came from unless the
numbers that follow from the others were different there. No byte string in memory is as long as
`hsize` rules out. -/
theorem toDer_reloads {der : Bytes} {key : PrivateKey} (hsize : der.length < 1 <<< 64)
    (hload : load der = .ok key) :
    ∃ crt, der = key.file crt ∧
      ((∃ x, key.q * x ≡ 1 [MOD key.p]) → ∃ coefficient out,
        coefficient < key.p ∧ key.q * coefficient ≡ 1 [MOD key.p] ∧
        key.toDer = .ok out ∧ load out = .ok key ∧ (load out).bind toDer = .ok out ∧
        (out = der ↔ crt = ⟨key.privateExponent % (key.p - 1), key.privateExponent % (key.q - 1),
          coefficient⟩)) ∧
      ((¬∃ x, key.q * x ≡ 1 [MOD key.p]) → key.toDer = .error (.cryptoEngine .privateKey)) := by
  have hkey := consistent_of_load hload
  obtain ⟨crt, rfl⟩ := exists_file_of_load hload
  have hshort := isShort_of_length (Nat.le_of_lt hsize)
  refine ⟨crt, rfl, fun hinverse => ?_, fun hnone => ?_⟩
  · obtain ⟨coefficient, hcoefficient⟩ := exists_coefficient hinverse
    obtain ⟨hlt, hmul⟩ := hkey.coefficient?_spec hcoefficient
    have hout := toDer_eq_file hcoefficient
    have hafresh : key.IsShort ⟨key.exponentAt key.p, key.exponentAt key.q, coefficient⟩ :=
      hshort.of_le (Nat.mod_le _ _) (Nat.mod_le _ _) (Nat.le_of_lt hlt)
    have hreload := hafresh.load_file hkey
    refine ⟨coefficient, _, hlt, hmul, hout, hreload, ?_, (hafresh.file_inj hshort).trans eq_comm⟩
    rw [hreload]
    exact hout
  · cases hcoefficient : key.coefficient? with
    | none => exact toDer_of_none hcoefficient
    | some coefficient =>
      exact absurd ⟨coefficient, (hkey.coefficient?_spec hcoefficient).2⟩ hnone

/-- A file may have zeros for the numbers that follow from the others; written again, it has not. -/
theorem toDer_reloads_bare :
    load (mersenneKey.file ⟨0, 0, 0⟩) = .ok mersenneKey ∧ ∃ out,
      mersenneKey.toDer = .ok out ∧ load out = .ok mersenneKey ∧
        out ≠ mersenneKey.file ⟨0, 0, 0⟩ := by
  have hload : load (mersenneKey.file ⟨0, 0, 0⟩) = .ok mersenneKey := by decide +kernel
  have hsize : (mersenneKey.file ⟨0, 0, 0⟩).length < 1 <<< 64 := by decide +kernel
  obtain ⟨crt, hfile, hwritten, -⟩ := toDer_reloads hsize hload
  have hinverse : mersenneKey.q * 2147483645 ≡ 1 [MOD mersenneKey.p] := by decide +kernel
  obtain ⟨coefficient, out, -, -, hout, hreload, -, hsame⟩ := hwritten ⟨_, hinverse⟩
  have hshort := isShort_of_length (Nat.le_of_lt hsize)
  have hshort' := isShort_of_length (hfile ▸ Nat.le_of_lt hsize)
  obtain rfl := (hshort.file_inj hshort').1 hfile
  refine ⟨hload, out, hout, hreload, fun heq => ?_⟩
  have hzero : 0 = mersenneKey.privateExponent % (mersenneKey.p - 1) :=
    congrArg Crt.exponent₁ (hsame.1 heq)
  exact absurd hzero (by decide +kernel)

/-- Equal factors are accepted, but such a key cannot be written. -/
example : load (PrivateKey.file ⟨9, 3, 1, 3, 3⟩ ⟨1, 1, 0⟩) = .ok ⟨9, 3, 1, 3, 3⟩ ∧
    toDer ⟨9, 3, 1, 3, 3⟩ = .error (.cryptoEngine .privateKey) := by decide +kernel

end PdfStream.PrivateKey
