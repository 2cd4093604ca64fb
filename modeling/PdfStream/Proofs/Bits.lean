import Mathlib.Tactic.Ring
import PdfStream.Bits
import PdfStream.Proofs.Bytes

/-!
Bits and the bytes they are packed into. Packing undoes unpacking, in either order, and leaves fewer
than eight bits over.
-/
namespace PdfStream.Bits

/-- The bits of all bytes. -/
def ofBytes (order : Order) (data : Bytes) : List Bool := data.flatMap order.ofByte

theorem ofBytes_cons (order : Order) (b : UInt8) (data : Bytes) :
    ofBytes order (b :: data) = order.ofByte b ++ ofBytes order data := List.flatMap_cons

theorem ofBytes_append (order : Order) (xs ys : Bytes) :
    ofBytes order (xs ++ ys) = ofBytes order xs ++ ofBytes order ys := List.flatMap_append

@[simp] theorem length_ofByte (order : Order) (b : UInt8) : (order.ofByte b).length = 8 := by
  cases order
  · exact length_highFirst 8 _
  · exact length_lowFirst 8 _

theorem length_ofBytes (order : Order) (data : Bytes) :
    (ofBytes order data).length = 8 * data.length := by
  induction data with
  | nil => rfl
  | cons b data ih =>
    rw [ofBytes_cons, List.length_append, length_ofByte, ih, List.length_cons]
    omega

theorem ofHighFirst_append_singleton (bits : List Bool) (b : Bool) :
    ofHighFirst (bits ++ [b]) = 2 * ofHighFirst bits + b.toNat := by
  rw [ofHighFirst, List.foldl_append]
  rfl

theorem highFirst_succ (width n : Nat) :
    highFirst (width + 1) n = highFirst width (n / 2) ++ [n % 2 == 1] := by
  induction width with
  | zero =>
    have hbit : n.testBit 0 = (n % 2 == 1) := Nat.testBit_zero n
    exact congrArg (fun b => [b]) hbit
  | succ width ih =>
    rw [highFirst, ih, highFirst, Nat.testBit_succ, List.cons_append]

theorem toNat_mod_two_beq (n : Nat) : (n % 2 == 1).toNat = n % 2 := by
  rcases Nat.mod_two_eq_zero_or_one n with h | h <;> rw [h] <;> rfl

theorem ofHighFirst_highFirst {width n : Nat} (h : n < 2 ^ width) :
    ofHighFirst (highFirst width n) = n := by
  induction width generalizing n with
  | zero =>
    rw [Nat.pow_zero] at h
    exact (Nat.lt_one_iff.1 h).symm
  | succ width ih =>
    rw [Nat.pow_succ] at h
    rw [highFirst_succ, ofHighFirst_append_singleton, ih (by omega), toNat_mod_two_beq]
    omega

theorem ofLowFirst_lowFirst {width n : Nat} (h : n < 2 ^ width) :
    ofLowFirst (lowFirst width n) = n := by
  induction width generalizing n with
  | zero =>
    rw [Nat.pow_zero] at h
    exact (Nat.lt_one_iff.1 h).symm
  | succ width ih =>
    rw [Nat.pow_succ] at h
    have hrest := ih (n := n / 2) (by omega)
    rw [ofLowFirst] at hrest
    rw [lowFirst, ofLowFirst, List.foldr_cons, hrest, toNat_mod_two_beq]
    omega

theorem ofLowFirst_cons (bit : Bool) (bits : List Bool) :
    ofLowFirst (bit :: bits) = 2 * ofLowFirst bits + bit.toNat := rfl

theorem ofLowFirst_append (xs ys : List Bool) :
    ofLowFirst (xs ++ ys) = ofLowFirst xs + 2 ^ xs.length * ofLowFirst ys := by
  induction xs with
  | nil => simp [ofLowFirst]
  | cons bit xs ih =>
    rw [List.cons_append, ofLowFirst_cons, ofLowFirst_cons, ih, List.length_cons, Nat.pow_succ]
    ring

theorem ofLowFirst_lt (bits : List Bool) : ofLowFirst bits < 2 ^ bits.length := by
  induction bits with
  | nil => exact Nat.one_pos
  | cons bit bits ih =>
    have hbit : bit.toNat ≤ 1 := bit.toNat_le
    rw [ofLowFirst_cons, List.length_cons, Nat.pow_succ]
    omega

/-- The bits in front go. -/
theorem ofLowFirst_append_shiftRight (xs ys : List Bool) :
    ofLowFirst (xs ++ ys) >>> xs.length = ofLowFirst ys := by
  rw [ofLowFirst_append, Nat.shiftRight_eq_div_pow, Nat.add_mul_div_left _ _ (Nat.two_pow_pos _),
    Nat.div_eq_of_lt (ofLowFirst_lt xs), Nat.zero_add]

theorem ofLowFirst_ofBytes (data : Bytes) :
    ofLowFirst (ofBytes .lowFirst data) = Bytes.toNat data.reverse := by
  induction data with
  | nil => rfl
  | cons b data ih =>
    have hbyte : ofLowFirst (Order.lowFirst.ofByte b) = b.toNat := ofLowFirst_lowFirst b.toNat_lt
    rw [ofBytes_cons, ofLowFirst_append, length_ofByte, hbyte, ih, List.reverse_cons,
      Bytes.toNat_append_singleton]
    omega

theorem toByte_ofByte (order : Order) (b : UInt8) : order.toByte (order.ofByte b) = b := by
  have hlt : b.toNat < 2 ^ 8 := b.toNat_lt
  cases order
  · rw [Order.ofByte, Order.toByte, ofHighFirst_highFirst hlt, UInt8.ofNat_toNat]
  · rw [Order.ofByte, Order.toByte, ofLowFirst_lowFirst hlt, UInt8.ofNat_toNat]

theorem ofByte_toByte (order : Order) (a b c d e f g h : Bool) :
    order.ofByte (order.toByte [a, b, c, d, e, f, g, h]) = [a, b, c, d, e, f, g, h] := by
  revert a b c d e f g h
  cases order <;> decide +kernel

theorem ofByte_eq (order : Order) (b : UInt8) :
    ∃ x0 x1 x2 x3 x4 x5 x6 x7, order.ofByte b = [x0, x1, x2, x3, x4, x5, x6, x7] := by
  match h : order.ofByte b, length_ofByte order b with
  | [x0, x1, x2, x3, x4, x5, x6, x7], _ => exact ⟨x0, x1, x2, x3, x4, x5, x6, x7, rfl⟩

theorem packOnto_ofBytes (order : Order) (done : Array UInt8) (data : Bytes) (bits : List Bool) :
    packOnto order done (ofBytes order data ++ bits) = packOnto order (done ++ data) bits := by
  induction data generalizing done with
  | nil => simp [ofBytes]
  | cons b data ih =>
    obtain ⟨x0, x1, x2, x3, x4, x5, x6, x7, hb⟩ := ofByte_eq order b
    have hbyte : order.toByte [x0, x1, x2, x3, x4, x5, x6, x7] = b := by
      rw [← hb, toByte_ofByte]
    rw [ofBytes_cons, hb]
    simp only [List.cons_append, List.nil_append, packOnto, hbyte]
    rw [ih]
    simp

theorem packOnto_short (order : Order) (done : Array UInt8) {bits : List Bool}
    (h : bits.length < 8) : packOnto order done bits = (done, bits) := by
  match bits, h with
  | [], _ | [_], _ | [_, _], _ | [_, _, _], _ | [_, _, _, _], _ | [_, _, _, _, _], _
  | [_, _, _, _, _, _], _ | [_, _, _, _, _, _, _], _ => rfl

theorem pack_ofBytes (order : Order) (data : Bytes) {short : List Bool} (h : short.length < 8) :
    pack order (ofBytes order data ++ short) = (data, short) := by
  simp [pack, packOnto_ofBytes, packOnto_short order _ h]

theorem ofBytes_packOnto (order : Order) (done : Array UInt8) (bits : List Bool) :
    ofBytes order (packOnto order done bits).1.toList ++ (packOnto order done bits).2 =
      ofBytes order done.toList ++ bits := by
  fun_induction packOnto order done bits with
  | case1 done a b c d e f g h rest ih =>
    rw [ih, Array.toList_push, ofBytes_append, ofBytes_cons, ofByte_toByte]
    simp [ofBytes]
  | case2 => rfl

/-- The bits of the bytes, and those left over, are the bits there were. -/
theorem ofBytes_pack (order : Order) (bits : List Bool) :
    ofBytes order (pack order bits).1 ++ (pack order bits).2 = bits := by
  have hall := ofBytes_packOnto order #[] bits
  simpa [pack, ofBytes] using hall

theorem length_pack (order : Order) (bits : List Bool) : (pack order bits).2.length < 8 := by
  have hshort (done : Array UInt8) : (packOnto order done bits).2.length < 8 := by
    fun_induction packOnto order done bits with
    | case1 done a b c d e f g h rest ih => exact ih
    | case2 done bits hfew =>
      match bits, hfew with
      | [], _ | [_], _ | [_, _], _ | [_, _, _], _ | [_, _, _, _], _ | [_, _, _, _, _], _
      | [_, _, _, _, _, _], _ | [_, _, _, _, _, _, _], _ => simp
      | a :: b :: c :: d :: e :: f :: g :: h :: rest, hfew =>
        exact (hfew a b c d e f g h rest rfl).elim
  exact hshort #[]

/-- Bytes in front stay as they are. -/
theorem pack_append (order : Order) (data : Bytes) (bits : List Bool) :
    pack order (ofBytes order data ++ bits) =
      (data ++ (pack order bits).1, (pack order bits).2) := by
  have hsplit : ofBytes order data ++ bits =
      ofBytes order (data ++ (pack order bits).1) ++ (pack order bits).2 := by
    rw [ofBytes_append, List.append_assoc, ofBytes_pack]
  rw [hsplit, pack_ofBytes order _ (length_pack order bits)]

/-- Whole bytes leave nothing over. -/
theorem pack_whole (order : Order) {bits : List Bool} (h : bits.length % 8 = 0) :
    (pack order bits).2 = [] := by
  have hall := congrArg List.length (ofBytes_pack order bits)
  have hshort := length_pack order bits
  rw [List.length_append, length_ofBytes] at hall
  apply List.eq_nil_of_length_eq_zero
  omega

theorem exists_ofBytes_eq (order : Order) {bits : List Bool} (h : bits.length % 8 = 0) :
    ∃ data, ofBytes order data = bits := by
  have hall := ofBytes_pack order bits
  rw [pack_whole order h, List.append_nil] at hall
  exact ⟨_, hall⟩

theorem ofBytes_injective (order : Order) : Function.Injective (ofBytes order) := by
  intro xs ys h
  have hnone : ([] : List Bool).length < 8 := Nat.succ_pos 7
  have hxs := pack_ofBytes order xs hnone
  rw [h, pack_ofBytes order ys hnone] at hxs
  exact (congrArg Prod.fst hxs).symm

/-- All bits in bytes, the last one filled up with zeros. -/
def packAll (order : Order) (bits : List Bool) : Bytes :=
  (pack order bits).1 ++ padded order (pack order bits).2

theorem packAll_append (order : Order) (data : Bytes) (bits : List Bool) :
    packAll order (ofBytes order data ++ bits) = data ++ packAll order bits := by
  rw [packAll, pack_append, List.append_assoc]
  rfl

/-- The zeros come last, and are fewer than a byte has bits. -/
theorem ofBytes_packAll (order : Order) (bits : List Bool) :
    ∃ zeros, ofBytes order (packAll order bits) = bits ++ zeros ∧ zeros.length < 8 := by
  have hall := ofBytes_pack order bits
  have hshort := length_pack order bits
  rw [packAll, ofBytes_append]
  by_cases hnil : (pack order bits).2 = []
  · refine ⟨[], ?_, Nat.succ_pos 7⟩
    rw [hnil, List.append_nil] at hall
    rw [hnil, hall]
    rfl
  · refine ⟨List.replicate (8 - (pack order bits).2.length) false, ?_, ?_⟩
    rotate_left
    · have hsome := List.length_pos_iff.2 hnil
      rw [List.length_replicate]
      omega
    have hpadded : ofBytes order (padded order (pack order bits).2) =
        (pack order bits).2 ++ List.replicate (8 - (pack order bits).2.length) false := by
      have height : ((pack order bits).2 ++
          List.replicate (8 - (pack order bits).2.length) false).length = 8 := by
        rw [List.length_append, List.length_replicate]
        omega
      rw [padded, if_neg hnil]
      match (pack order bits).2 ++ List.replicate (8 - (pack order bits).2.length) false,
        height with
      | [x0, x1, x2, x3, x4, x5, x6, x7], _ =>
        rw [ofBytes_cons, ofByte_toByte]
        rfl
    rw [hpadded, ← List.append_assoc, hall]

end PdfStream.Bits
