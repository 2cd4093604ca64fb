import PdfStream.Flate.Reader
import PdfStream.Proofs.Flate.Inflate

/-!
Filling a window. What was decoded and what the bits left stand for is together what scanning makes
of all the bits; bits are left only if the window is full or the stream is over.
-/
namespace PdfStream
namespace Flate

namespace Fill

/-- The bits of the data, low bit first. -/
abbrev bitsOf (data : Bytes) : List Bool := Bits.ofBytes .lowFirst data

/-- What was decoded, and what the bits to come stand for. -/
def inAll (f : Fill) (bits : List Bool) : Option Bytes :=
  (f.inflate.scan bits).map (f.bytes.toList ++ ·)

/-- A fill that went over its room by one bit at most. -/
structure Fits (room : Nat) (f : Fill) : Prop where
  sane : f.inflate.IsSane
  size : f.bytes.size ≤ room + 258
  finished : room < f.bytes.size → f.inflate.isFinished = false

theorem not_done {room : Nat} {f : Fill} (h : ¬f.isDone room = true) :
    f.inflate.isFinished = false ∧ f.inflate.isBroken = false ∧ f.bytes.size ≤ room := by
  simp only [isDone, Bool.or_eq_true, Bool.and_eq_true, decide_eq_true_eq, not_or] at h
  obtain ⟨⟨⟨hfinished, hbroken⟩, hroom⟩, -⟩ := h
  exact ⟨by simpa using hfinished, by simpa using hbroken, by omega⟩

/-- The fill after one more bit. -/
def next (f : Fill) (bit : Bool) : Fill :=
  { f with
    inflate := (f.inflate.readBit bit).state
    bytes := f.bytes ++ (f.inflate.readBit bit).bytes }

section
variable {room : Nat}

theorem readBits_of_done {f : Fill} (h : f.isDone room = true) (bits : List Bool) :
    f.readBits room bits = { f with bits } := by
  cases bits with
  | nil => rfl
  | cons bit bits => rw [readBits, if_pos h]

theorem readBits_cons {f : Fill} (h : ¬f.isDone room = true) (bit : Bool) (bits : List Bool) :
    f.readBits room (bit :: bits) = (f.next bit).readBits room bits := by
  rw [readBits, if_neg h]
  rfl

theorem size_next {f : Fill} (hsane : f.inflate.IsSane) (bit : Bool) :
    (f.next bit).bytes.size ≤ f.bytes.size + 258 := by
  have hlength := (Inflate.isBounded_readBit hsane bit).length
  rw [next, ← Array.length_toList, Array.toList_appendList, List.length_append,
    Array.length_toList]
  omega

theorem Fits.next {f : Fill} (h : f.Fits room) (hdone : ¬f.isDone room = true) (bit : Bool) :
    (f.next bit).Fits room := by
  obtain ⟨-, -, hroom⟩ := not_done hdone
  have hbit := Inflate.isBounded_readBit h.sane bit
  have hsize := size_next h.sane bit
  refine ⟨hbit.sane, by omega, fun hover => hbit.finished ?_⟩
  intro hnil
  simp only [Fill.next, hnil] at hover
  exact absurd hover (Nat.not_lt_of_le (by simpa using hroom))

theorem readBits_inAll (f : Fill) (bits more : List Bool) :
    (f.readBits room bits).inAll ((f.readBits room bits).bits ++ more) =
      f.inAll (bits ++ more) := by
  induction bits generalizing f with
  | nil => rfl
  | cons bit bits ih =>
    by_cases hdone : f.isDone room = true
    · rw [readBits_of_done hdone]
      rfl
    · obtain ⟨hfinished, hbroken, -⟩ := not_done hdone
      rw [readBits_cons hdone, ih, List.cons_append, inAll, inAll,
        Inflate.scan_cons hfinished hbroken, Option.map_map]
      congr 1
      funext later
      simp [next]

theorem Fits.readBits {f : Fill} (h : f.Fits room) (bits : List Bool) :
    (f.readBits room bits).Fits room := by
  induction bits generalizing f with
  | nil => exact ⟨h.sane, h.size, h.finished⟩
  | cons bit bits ih =>
    by_cases hdone : f.isDone room = true
    · rw [readBits_of_done hdone]
      exact ⟨h.sane, h.size, h.finished⟩
    · rw [readBits_cons hdone]
      exact ih (h.next hdone bit)

/-- Bits stay only where the fill is done. -/
theorem isDone_readBits (f : Fill) {bits : List Bool} (h : (f.readBits room bits).bits ≠ []) :
    (f.readBits room bits).isDone room = true := by
  induction bits generalizing f with
  | nil => exact absurd rfl h
  | cons bit bits ih =>
    by_cases hdone : f.isDone room = true
    · rw [readBits_of_done hdone]
      exact hdone
    · rw [readBits_cons hdone] at h ⊢
      exact ih _ h

theorem length_readBits (f : Fill) (bits : List Bool) :
    (f.readBits room bits).bits.length ≤ bits.length := by
  induction bits generalizing f with
  | nil => exact Nat.le_refl 0
  | cons bit bits ih =>
    by_cases hdone : f.isDone room = true
    · rw [readBits_of_done hdone]
    · rw [readBits_cons hdone, List.length_cons]
      exact Nat.le_succ_of_le (ih _)

theorem length_readBits_lt {f : Fill} (hdone : ¬f.isDone room = true) {bits : List Bool}
    (h : bits ≠ []) : (f.readBits room bits).bits.length < bits.length := by
  obtain ⟨bit, bits, rfl⟩ := List.exists_cons_of_ne_nil h
  rw [readBits_cons hdone, List.length_cons]
  exact Nat.lt_succ_of_le (length_readBits _ _)

/-- What a few bits bring. -/
theorem size_readBits {f : Fill} (h : f.Fits room) (bits : List Bool) :
    (f.readBits room bits).bytes.size ≤ f.bytes.size + 258 * bits.length := by
  induction bits generalizing f with
  | nil => exact Nat.le_refl _
  | cons bit bits ih =>
    by_cases hdone : f.isDone room = true
    · rw [readBits_of_done hdone]
      exact Nat.le_add_right _ _
    · have hrest := ih (h.next hdone bit)
      have hbit := size_next h.sane bit
      rw [readBits_cons hdone, List.length_cons]
      omega

theorem readBytes_of_stuck {f : Fill} (h : (f.isDone room || f.bits ≠ []) = true) (data : Bytes) :
    f.readBytes room data = { f with data } := by
  cases data with
  | nil => rfl
  | cons b data => rw [readBytes, if_pos h]

theorem readBytes_cons {f : Fill} (h : ¬(f.isDone room || f.bits ≠ []) = true) (b : UInt8)
    (data : Bytes) : f.readBytes room (b :: data) =
      (f.readBits room (Bits.Order.lowFirst.ofByte b)).readBytes room data := by
  rw [readBytes, if_neg h]

theorem not_stuck {f : Fill} (h : ¬(f.isDone room || f.bits ≠ []) = true) :
    ¬f.isDone room = true ∧ f.bits = [] := by
  simpa using h

theorem readBytes_inAll (f : Fill) (data : Bytes) (more : List Bool) :
    (f.readBytes room data).inAll ((f.readBytes room data).bits ++
        bitsOf (f.readBytes room data).data ++ more) =
      f.inAll (f.bits ++ bitsOf data ++ more) := by
  induction data generalizing f with
  | nil => rfl
  | cons b data ih =>
    by_cases hstuck : (f.isDone room || f.bits ≠ []) = true
    · rw [readBytes_of_stuck hstuck]
      rfl
    · obtain ⟨-, hbits⟩ := not_stuck hstuck
      have hcons : bitsOf (b :: data) = Bits.Order.lowFirst.ofByte b ++ bitsOf data :=
        Bits.ofBytes_cons .lowFirst b data
      rw [readBytes_cons hstuck, ih, List.append_assoc, readBits_inAll, hbits, List.nil_append,
        hcons, List.append_assoc]

theorem Fits.readBytes {f : Fill} (h : f.Fits room) (data : Bytes) :
    (f.readBytes room data).Fits room := by
  induction data generalizing f with
  | nil => exact ⟨h.sane, h.size, h.finished⟩
  | cons b data ih =>
    by_cases hstuck : (f.isDone room || f.bits ≠ []) = true
    · rw [readBytes_of_stuck hstuck]
      exact ⟨h.sane, h.size, h.finished⟩
    · rw [readBytes_cons hstuck]
      exact ih (h.readBits _)

/-- Bits and bytes stay only where the fill is done. -/
theorem isDone_readBytes {f : Fill} (hf : f.bits ≠ [] → f.isDone room = true) {data : Bytes}
    (h : (f.readBytes room data).bits ≠ [] ∨ (f.readBytes room data).data ≠ []) :
    (f.readBytes room data).isDone room = true := by
  induction data generalizing f with
  | nil => exact hf (h.resolve_right fun hne => hne rfl)
  | cons b data ih =>
    by_cases hstuck : (f.isDone room || f.bits ≠ []) = true
    · rw [readBytes_of_stuck hstuck]
      rcases Bool.or_eq_true_iff.1 hstuck with hdone | hbits
      · exact hdone
      · exact hf (of_decide_eq_true hbits)
    · rw [readBytes_cons hstuck] at h ⊢
      exact ih (fun hbits => isDone_readBits f hbits) h

theorem bits_readBytes {f : Fill} (h : f.bits.length ≤ 8) (data : Bytes) :
    (f.readBytes room data).bits.length ≤ 8 := by
  induction data generalizing f with
  | nil => exact h
  | cons b data ih =>
    by_cases hstuck : (f.isDone room || f.bits ≠ []) = true
    · rw [readBytes_of_stuck hstuck]
      exact h
    · rw [readBytes_cons hstuck]
      refine ih (Nat.le_trans (length_readBits f _) ?_)
      rw [Bits.length_ofByte]

theorem left_readBytes (f : Fill) (data : Bytes) :
    (f.readBytes room data).left ≤ f.bits.length + 8 * data.length := by
  induction data generalizing f with
  | nil => exact Nat.le_refl _
  | cons b data ih =>
    by_cases hstuck : (f.isDone room || f.bits ≠ []) = true
    · rw [readBytes_of_stuck hstuck]
      exact Nat.le_refl _
    · have hrest := ih (f.readBits room (Bits.Order.lowFirst.ofByte b))
      have hbits : (f.readBits room (Bits.Order.lowFirst.ofByte b)).bits.length ≤
          (Bits.Order.lowFirst.ofByte b).length := length_readBits f _
      rw [Bits.length_ofByte] at hbits
      rw [readBytes_cons hstuck, List.length_cons]
      omega

theorem left_readBytes_lt {f : Fill} (hdone : ¬f.isDone room = true) (hbits : f.bits = [])
    {data : Bytes} (h : data ≠ []) : (f.readBytes room data).left < 8 * data.length := by
  obtain ⟨b, data, rfl⟩ := List.exists_cons_of_ne_nil h
  have hstuck : ¬(f.isDone room || f.bits ≠ []) = true := by simp [hdone, hbits]
  have hrest : ((f.readBits room (Bits.Order.lowFirst.ofByte b)).readBytes room data).left ≤
      (f.readBits room (Bits.Order.lowFirst.ofByte b)).bits.length + 8 * data.length :=
    left_readBytes _ data
  have hnil : Bits.Order.lowFirst.ofByte b ≠ [] := by
    intro hnil
    have height := Bits.length_ofByte .lowFirst b
    rw [hnil] at height
    cases height
  have hless := length_readBits_lt hdone hnil
  rw [Bits.length_ofByte] at hless
  rw [readBytes_cons hstuck, List.length_cons]
  omega

end
end Fill
end Flate
end PdfStream
