import Mathlib.Logic.Equiv.Basic
import Mathlib.Logic.Function.Iterate
import PdfStream.Cipher.Rc4

/-!
RC4 over any cuts of the data. Its state is always a permutation of the byte values. The bytes added
to the data depend on how many came before, not on what they were, so that encrypting twice from one
state gives back the data.
-/
namespace PdfStream.Rc4

/-- Each byte value stands in exactly one place. -/
def IsPermutation (perm : Vector UInt8 256) : Prop :=
  Function.Bijective fun place : UInt8 => perm.get place.toFin

section
variable {perm : Vector UInt8 256}

theorem get_eq_getElem (perm : Vector UInt8 256) {place : UInt8} (hplace : place.toNat < 256) :
    perm.get place.toFin = perm[place.toNat] := rfl

/-- The two places may be one. -/
theorem get_swap (perm : Vector UInt8 256) (i j place : UInt8) :
    (swap perm i j).get place.toFin = perm.get (Equiv.swap i j place).toFin := by
  rw [Equiv.swap_apply_def, get_eq_getElem _ place.toNat_lt, swap, Vector.getElem_swap]
  simp only [UInt8.toNat_inj]
  split_ifs
  · rfl
  · rfl
  · rfl

theorem IsPermutation.swap (h : IsPermutation perm) (i j : UInt8) :
    IsPermutation (swap perm i j) := by
  have hplaces : (fun place : UInt8 => (Rc4.swap perm i j).get place.toFin) =
      (fun place : UInt8 => perm.get place.toFin) ∘ Equiv.swap i j := by
    funext place
    exact get_swap perm i j place
  unfold IsPermutation
  rw [hplaces]
  exact h.comp (Equiv.swap i j).bijective

theorem isPermutation_identity : IsPermutation identity := by
  have hplaces : (fun place : UInt8 => identity.get place.toFin) = id := by
    funext place
    rw [get_eq_getElem _ place.toNat_lt, identity, Vector.getElem_ofFn]
    exact UInt8.ofNat_toNat
  unfold IsPermutation
  rw [hplaces]
  exact Function.bijective_id

end

/-- The state that the key schedule ends with. -/
def scheduled (key : Bytes) : Rc4 :=
  ⟨(Nat.repeat (stir key.toArray) 256 ⟨identity, 0, 0⟩).perm, 0, 0⟩

theorem ofKey_eq {key : Bytes} (hkey : 1 ≤ key.length ∧ key.length ≤ 256) :
    ofKey key = .ok (scheduled key) := by
  apply if_neg
  omega

/-- One swap a round. -/
theorem isPermutation_scheduled (key : Bytes) : IsPermutation (scheduled key).perm := by
  have hrounds : ∀ n, IsPermutation (Nat.repeat (stir key.toArray) n ⟨identity, 0, 0⟩).perm := by
    intro n
    induction n with
    | zero => exact isPermutation_identity
    | succ n ih => exact ih.swap _ _
  exact hrounds 256

theorem IsPermutation.advance {s : Rc4} (h : IsPermutation s.perm) :
    IsPermutation s.advance.perm := h.swap _ _

theorem isPermutation_iterate_advance {s : Rc4} (h : IsPermutation s.perm) (n : Nat) :
    IsPermutation (advance^[n] s).perm := by
  induction n with
  | zero => exact h
  | succ n ih =>
    rw [Function.iterate_succ_apply']
    exact ih.advance

/-- The state after the data. -/
def after (s : Rc4) : Bytes → Rc4
  | [] => s
  | _ :: data => after s.advance data

/-- The data with the keystream added. -/
def mask (s : Rc4) : Bytes → Bytes
  | [] => []
  | b :: data => (b ^^^ s.advance.output) :: mask s.advance data

theorem process_eq (s : Rc4) (data : Bytes) : s.process data = (s.after data, s.mask data) := by
  have hfold (acc : Rc4 × Array UInt8) : data.foldl (fun acc b =>
      (acc.1.advance, acc.2.push (b ^^^ acc.1.advance.output))) acc =
        (acc.1.after data, acc.2 ++ acc.1.mask data) := by
    induction data generalizing acc with
    | nil => simp [after, mask]
    | cons b data ih =>
      rw [List.foldl_cons, ih, after, mask]
      simp
  have hprocess : s.process data = (s.after data, ((#[] : Array UInt8) ++ s.mask data).toList) :=
    congrArg (fun acc : Rc4 × Array UInt8 => (acc.1, acc.2.toList)) (hfold (s, #[]))
  rw [hprocess]
  simp

theorem mask_append (s : Rc4) (xs ys : Bytes) :
    s.mask (xs ++ ys) = s.mask xs ++ (s.after xs).mask ys := by
  induction xs generalizing s with
  | nil => rfl
  | cons b xs ih => rw [List.cons_append, mask, mask, after, ih, List.cons_append]

theorem after_append (s : Rc4) (xs ys : Bytes) : s.after (xs ++ ys) = (s.after xs).after ys := by
  induction xs generalizing s with
  | nil => rfl
  | cons b xs ih => exact ih s.advance

/-- The state goes on by one step a byte, whatever the bytes are. -/
theorem after_eq_iterate (s : Rc4) (data : Bytes) : s.after data = advance^[data.length] s := by
  induction data generalizing s with
  | nil => rfl
  | cons b data ih => exact ih s.advance

/-- The byte that is added to the data at place n. -/
def keystream (s : Rc4) (n : Nat) : UInt8 := (advance^[n + 1] s).output

/-- Adds a stream of bytes to the data. -/
def addStream (stream : Nat → UInt8) (data : Bytes) : Bytes :=
  data.mapIdx fun n b => b ^^^ stream n

/-- Adding a stream again takes it away. -/
theorem addStream_addStream (stream : Nat → UInt8) (data : Bytes) :
    addStream stream (addStream stream data) = data := by
  apply List.ext_getElem
  · simp [addStream]
  · intro n _ _
    simp only [addStream, List.getElem_mapIdx, UInt8.xor_assoc, UInt8.xor_self, UInt8.xor_zero]

theorem mask_eq_addStream (s : Rc4) (data : Bytes) : s.mask data = addStream s.keystream data := by
  induction data generalizing s with
  | nil => rfl
  | cons b data ih =>
    rw [addStream, List.mapIdx_cons, mask, ih]
    rfl

theorem mask_mask (s : Rc4) (data : Bytes) : s.mask (s.mask data) = data := by
  rw [mask_eq_addStream, mask_eq_addStream, addStream_addStream]

/-- Call after call, each from the state that the one before it has left. -/
def processAll (s : Rc4) : List Bytes → Rc4 × Bytes
  | [] => (s, [])
  | data :: calls =>
    let (s, out) := s.process data
    let (s, rest) := processAll s calls
    (s, out ++ rest)

theorem processAll_eq (s : Rc4) (calls : List Bytes) :
    s.processAll calls =
      (advance^[calls.flatten.length] s, addStream s.keystream calls.flatten) := by
  rw [← after_eq_iterate, ← mask_eq_addStream]
  induction calls generalizing s with
  | nil => rfl
  | cons data calls ih =>
    simp only [processAll, process_eq, ih, List.flatten_cons, after_append, mask_append]

end PdfStream.Rc4
