import Mathlib.Data.List.Chain
import PdfStream.Lzw
import PdfStream.Proofs.Lzw.Decoder

/-!
Streams that can be read in whatever blocks. A call of a reader stops behind a clear code, and at a
word that its piece has no room for, also where all data have been taken in; then only the next call
reads on, and what it cannot reach is lost in the end. In a calm stream there is no such place from
which one more call does not get to the end code.
-/
namespace PdfStream.Lzw
open Reader (pieceLength aheadLength)

/-- Bits that codes take up. -/
def bitLength (codes : List Code) : Nat := (codes.map Code.width).sum

theorem bitLength_codes_le (d : Decoder) (bits : List Bool) :
    bitLength (d.codes bits) ≤ bits.length := by
  fun_induction Decoder.codes d bits with
  | case1 d bits hshort => exact Nat.zero_le _
  | case2 d bits hlong next ih =>
    rw [List.length_drop] at ih
    rw [bitLength, List.map_cons, List.sum_cons, ← bitLength]
    show d.width + _ ≤ _
    split
    next => omega
    next =>
      show d.width + 0 ≤ _
      omega

/-- Behind `size` bytes a piece has room for all the words in front of the end code, and there is no
clear code among them. -/
def FitPiece : Nat → List Code → Prop
  | size, ⟨_, .word reversed⟩ :: codes =>
    size + reversed.length ≤ pieceLength ∧ FitPiece (size + reversed.length) codes
  | _, ⟨_, .clear⟩ :: _ => False
  | _, ⟨_, .finish⟩ :: _ | _, ⟨_, .invalid⟩ :: _ | _, [] => True

instance decidableFitPiece : (size : Nat) → (codes : List Code) → Decidable (FitPiece size codes)
  | size, ⟨_, .word reversed⟩ :: codes =>
    have := decidableFitPiece (size + reversed.length) codes
    inferInstanceAs (Decidable (_ ∧ _))
  | _, ⟨_, .clear⟩ :: _ => isFalse id
  | _, ⟨_, .finish⟩ :: _ | _, ⟨_, .invalid⟩ :: _ | _, [] => isTrue trivial

theorem FitPiece.mono {size size' : Nat} (hle : size' ≤ size) {codes : List Code}
    (h : FitPiece size codes) : FitPiece size' codes := by
  induction codes generalizing size size' with
  | nil => trivial
  | cons code codes ih =>
    obtain ⟨width, meaning⟩ := code
    cases meaning with
    | word reversed =>
      obtain ⟨hroom, hrest⟩ := h
      refine ⟨?_, ih ?_ hrest⟩ <;> omega
    | clear => exact h
    | finish | invalid => trivial

/-- Behind every clear code, and behind every word with which more than a piece has come out, either
more bits are left than can be ahead or one piece takes all that is left. Before the first of the
codes there were `total` bytes. -/
def Settles : Nat → List Code → Prop
  | total, ⟨_, .word reversed⟩ :: codes =>
    (pieceLength < total + reversed.length → bitLength codes ≤ aheadLength →
      FitPiece reversed.length codes) ∧ Settles (total + reversed.length) codes
  | total, ⟨_, .clear⟩ :: codes =>
    (bitLength codes ≤ aheadLength → FitPiece 0 codes) ∧ Settles total codes
  | _, ⟨_, .finish⟩ :: _ | _, ⟨_, .invalid⟩ :: _ | _, [] => True

instance decidableSettles : (total : Nat) → (codes : List Code) → Decidable (Settles total codes)
  | total, ⟨_, .word reversed⟩ :: codes =>
    have := decidableSettles (total + reversed.length) codes
    inferInstanceAs (Decidable ((_ → _ → _) ∧ _))
  | total, ⟨_, .clear⟩ :: codes =>
    have := decidableSettles total codes
    inferInstanceAs (Decidable ((_ → _) ∧ _))
  | _, ⟨_, .finish⟩ :: _ | _, ⟨_, .invalid⟩ :: _ | _, [] => isTrue trivial

/-- No clear code directly follows another. -/
def ClearsApart (codes : List Code) : Prop :=
  codes.IsChain fun a b => ¬(a.meaning = .clear ∧ b.meaning = .clear)

instance (codes : List Code) : Decidable (ClearsApart codes) :=
  inferInstanceAs (Decidable (codes.IsChain fun a b => ¬(a.meaning = .clear ∧ b.meaning = .clear)))

/-- Clear codes are apart, and if there is an end code at all, one call gets to it from wherever a
call may stop with no data left. -/
structure IsCalm (codes : List Code) : Prop where
  apart : ClearsApart codes
  settles : spell codes ≠ none → Settles 0 codes

instance (codes : List Code) : Decidable (IsCalm codes) :=
  decidable_of_iff (_ ∧ (_ → _)) ⟨fun h => ⟨h.1, h.2⟩, fun h => ⟨h.apart, h.settles⟩⟩

/-- At least `n` words come before the next clear code, and seven between any two; nothing comes
behind the end code. -/
def Spaced : Nat → List Code → Prop
  | n, ⟨_, .word _⟩ :: codes => Spaced (n - 1) codes
  | n, ⟨_, .clear⟩ :: codes => n = 0 ∧ Spaced 7 codes
  | _, ⟨_, .finish⟩ :: codes | _, ⟨_, .invalid⟩ :: codes => codes = []
  | _, [] => True

theorem Spaced.mono {n n' : Nat} (hle : n' ≤ n) {codes : List Code} (h : Spaced n codes) :
    Spaced n' codes := by
  induction codes generalizing n n' with
  | nil => trivial
  | cons code codes ih =>
    obtain ⟨width, meaning⟩ := code
    cases meaning with
    | word reversed => exact ih (Nat.sub_le_sub_right hle 1) h
    | clear => exact ⟨Nat.le_zero.1 (h.1 ▸ hle), h.2⟩
    | finish | invalid => exact h

section
variable {codes : List Code}

theorem Spaced.apart {n : Nat} (h : Spaced n codes) : ClearsApart codes := by
  induction codes generalizing n with
  | nil => exact .nil
  | cons code codes ih =>
    obtain ⟨width, meaning⟩ := code
    cases codes with
    | nil => exact .singleton _
    | cons next codes =>
      cases meaning with
      | word reversed => exact .cons_cons (fun hboth => nomatch hboth.1) (ih h)
      | clear =>
        refine .cons_cons (fun hboth => ?_) (ih h.2)
        obtain ⟨width', meaning'⟩ := next
        cases hboth.2
        exact absurd h.2.1 (by decide)
      | finish | invalid => cases h

/-- If the next clear code is farther than the bits go, all words in front are those of the data. -/
theorem Spaced.fitPiece {n size : Nat} (h : Spaced n codes) (hwidth : ∀ code ∈ codes, 9 ≤ code.width)
    (hbits : bitLength codes < 9 * (n + 1)) {out : Bytes} (hspell : spell codes = some out)
    (hroom : size + out.length ≤ pieceLength) : FitPiece size codes := by
  induction codes generalizing n size out with
  | nil => trivial
  | cons code codes ih =>
    obtain ⟨width, meaning⟩ := code
    have hnine : 9 ≤ width := hwidth _ (List.mem_cons_self ..)
    have hrest : bitLength codes + width < 9 * (n + 1) := by
      rw [bitLength, List.map_cons, List.sum_cons, Nat.add_comm] at hbits
      exact hbits
    cases meaning with
    | word reversed =>
      obtain ⟨later, hlater, rfl⟩ := Option.map_eq_some_iff.1 hspell
      rw [List.length_append, List.length_reverse] at hroom
      refine ⟨by omega, ih h (fun c hc => hwidth c (List.mem_cons_of_mem _ hc)) ?_ hlater (by omega)⟩
      omega
    | clear =>
      have hnone := h.1
      omega
    | finish | invalid => trivial

theorem Spaced.settles {n total : Nat} (h : Spaced n codes) (hwidth : ∀ code ∈ codes, 9 ≤ code.width)
    {out : Bytes} (hspell : spell codes = some out) (hshort : total + out.length ≤ pieceLength) :
    Settles total codes := by
  induction codes generalizing n total out with
  | nil => trivial
  | cons code codes ih =>
    obtain ⟨width, meaning⟩ := code
    have hlater : ∀ code ∈ codes, 9 ≤ code.width := fun c hc =>
      hwidth c (List.mem_cons_of_mem _ hc)
    cases meaning with
    | word reversed =>
      obtain ⟨later, hspell', rfl⟩ := Option.map_eq_some_iff.1 hspell
      rw [List.length_append, List.length_reverse] at hshort
      exact ⟨fun hlong => by omega, ih h hlater hspell' (by omega)⟩
    | clear =>
      refine ⟨fun hbits => ?_, ih h.2 hlater hspell hshort⟩
      have hfew : bitLength codes < 9 * (7 + 1) := Nat.lt_of_le_of_lt hbits (by decide)
      exact h.2.fitPiece hlater hfew hspell (by omega)
    | finish | invalid => trivial

end

section
variable {d : Decoder} {bits : List Bool}

theorem isCalm_of_append {more : List Bool} (h : IsCalm (d.codes (bits ++ more))) :
    IsCalm (d.codes bits) := by
  refine ⟨?_, fun hends => ?_⟩
  · obtain ⟨later, hlater⟩ := d.exists_codes_append bits more
    have hapart := h.apart
    rw [hlater] at hapart
    exact List.IsChain.left_of_append hapart
  · rw [← Decoder.codes_append_of_scan hends more]
    apply h.settles
    rwa [Decoder.codes_append_of_scan hends more]

theorem IsCalm.append (h : IsCalm (d.codes bits)) (hends : d.scan bits ≠ none) (more : List Bool) :
    IsCalm (d.codes (bits ++ more)) := by
  rwa [Decoder.codes_append_of_scan hends]

/-- Few data with spaced clear codes. -/
theorem isCalm_of_spaced (hd : d.IsSane) (h : Spaced 0 (d.codes bits)) {out : Bytes}
    (hscan : d.scan bits = some out) (hshort : out.length ≤ pieceLength) :
    IsCalm (d.codes bits) :=
  ⟨h.apart, fun _ => h.settles (hd.codes bits) hscan (by omega)⟩

end

/-- The data are calm under the early-change setting of the parameters. -/
def IsCalmData (parms : Option DecodeParms) (data : Bytes) : Prop :=
  ∀ early predictor, settings parms = .ok (early, predictor) →
    IsCalm ((Decoder.create early).codes (Bits.ofBytes .highFirst data))

instance (parms : Option DecodeParms) (data : Bytes) : Decidable (IsCalmData parms data) :=
  match h : settings parms with
  | .error e => isTrue fun early predictor hok => by
    rw [h] at hok
    cases hok
  | .ok (early, predictor) =>
    decidable_of_iff (IsCalm ((Decoder.create early).codes (Bits.ofBytes .highFirst data))) <| by
      constructor
      · intro hcalm early' predictor' hok
        rw [h] at hok
        cases hok
        exact hcalm
      · exact fun hcalm => hcalm early predictor h

theorem isCalmData_of_append {parms : Option DecodeParms} {data more : Bytes}
    (h : IsCalmData parms (data ++ more)) : IsCalmData parms data := by
  intro early predictor hsettings
  have hall := h early predictor hsettings
  rw [Bits.ofBytes_append] at hall
  exact isCalm_of_append hall

/-- Data behind the end code do not matter. -/
theorem IsCalmData.append {parms : Option DecodeParms} {data : Bytes} (h : IsCalmData parms data)
    {early : Bool} {predictor : Option Predictor}
    (hsettings : settings parms = .ok (early, predictor))
    (hends : (Decoder.create early).scan (Bits.ofBytes .highFirst data) ≠ none) (more : Bytes) :
    IsCalmData parms (data ++ more) := by
  intro early' predictor' hsettings'
  rw [hsettings] at hsettings'
  cases hsettings'
  rw [Bits.ofBytes_append]
  exact (h early predictor hsettings).append hends _

end PdfStream.Lzw
