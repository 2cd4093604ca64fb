import PdfStream.Proofs.Bits

/-!
Input that tells where it ends. A scanner that stops at a mark of its own needs all of the input up to
there and looks at nothing behind it.
-/
namespace PdfStream
variable {α β γ : Type}

/-- What a scanner has made of its input stands, whatever follows. -/
def IsSettled (scan : List α → Option β) : Prop :=
  ∀ front out, scan front = some out → ∀ more, scan (front ++ more) = some out

/-- Nothing less than `front` will do for the scanner, and nothing behind it shows in `out`. -/
structure Delimits (scan : List α → Option β) (front : List α) (out : β) : Prop where
  settled : ∀ more, scan (front ++ more) = some out
  least : ∀ short, short <+: front → short ≠ front → scan short = none

theorem length_lt_of_prefix {short front : List α} (h : short <+: front) (hne : short ≠ front) :
    short.length < front.length :=
  Nat.lt_of_le_of_ne h.length_le fun hlength => hne (h.eq_of_length hlength)

theorem IsSettled.bind {scan : List α → Option β} (h : IsSettled scan) (f : β → Option γ) :
    IsSettled fun data => (scan data).bind f := by
  intro front out hout more
  obtain ⟨value, hscan, hvalue⟩ := Option.bind_eq_some_iff.1 hout
  show (scan (front ++ more)).bind f = some out
  rw [h front value hscan more, Option.bind_some, hvalue]

theorem IsSettled.ofBytes {scan : List Bool → Option β} (h : IsSettled scan)
    (order : Bits.Order) : IsSettled fun data => scan (Bits.ofBytes order data) := by
  intro front out hout more
  show scan (Bits.ofBytes order (front ++ more)) = some out
  rw [Bits.ofBytes_append, h _ out hout]

/-- The shortest part of the input that will do, by induction on how much of it there is. -/
theorem IsSettled.exists_delimits {scan : List α → Option β} (h : IsSettled scan)
    {data : List α} {out : β} (hout : scan data = some out) :
    ∃ front, front <+: data ∧ Delimits scan front out := by
  induction hlength : data.length using Nat.strong_induction_on generalizing data with
  | _ length ih =>
    by_cases hleast : ∀ short, short <+: data → short ≠ data → scan short = none
    · exact ⟨data, List.prefix_refl data, h data out hout, hleast⟩
    · push Not at hleast
      obtain ⟨short, hshort, hne, hsome⟩ := hleast
      obtain ⟨out', hout'⟩ := Option.ne_none_iff_exists'.1 hsome
      have hsame : out' = out := by
        obtain ⟨more, rfl⟩ := hshort
        exact Option.some.inj ((h short out' hout' more).symm.trans hout)
      subst hsame
      have hlt : short.length < length := hlength ▸ length_lt_of_prefix hshort hne
      obtain ⟨front, hfront, hdelimits⟩ := ih short.length hlt hout' rfl
      exact ⟨front, hfront.trans hshort, hdelimits⟩

namespace Delimits
variable {scan scan' : List α → Option β} {front : List α} {out : β}

theorem eq_some (h : Delimits scan front out) : scan front = some out := by
  have hsettled := h.settled []
  rwa [List.append_nil] at hsettled

/-- Of two such parts of one input, neither can end within the other. -/
theorem eq_of_prefix (h : Delimits scan front out) {front' : List α} {out' : β}
    (h' : Delimits scan front' out') {data : List α} (hfront : front <+: data)
    (hfront' : front' <+: data) : front = front' := by
  have hclash {a b : List α} {x y : β} (ha : Delimits scan a x) (hb : Delimits scan b y)
      (hwithin : a <+: b) : a = b := by
    by_contra hne
    have hnone := hb.least a hwithin hne
    rw [ha.eq_some] at hnone
    cases hnone
  rcases List.prefix_or_prefix_of_prefix hfront hfront' with hwithin | hwithin
  · exact hclash h h' hwithin
  · exact (hclash h' h hwithin).symm

/-- A part in front from which the scanner goes on in another state, and which it cannot end in. -/
theorem prepend {head : List α} {f : β → β} (h : Delimits scan' front out)
    (hshort : ∀ short, short <+: head → short ≠ head → scan short = none)
    (hscan : ∀ data, scan (head ++ data) = (scan' data).map f) :
    Delimits scan (head ++ front) (f out) := by
  constructor
  · intro more
    rw [List.append_assoc, hscan, h.settled, Option.map_some]
  · intro short hfront hne
    have hinside (tail : List α) (htail : head ++ tail = short) : scan short = none := by
      subst htail
      have hleast := h.least tail ((List.prefix_append_right_inj head).1 hfront)
        fun hsame => hne (congrArg (head ++ ·) hsame)
      rw [hscan, hleast, Option.map_none]
    rcases List.prefix_or_prefix_of_prefix hfront (List.prefix_append head front) with
      hbefore | ⟨tail, htail⟩
    · by_cases hwhole : short = head
      · exact hinside [] ((List.append_nil head).trans hwhole.symm)
      · exact hshort short hbefore hwhole
    · exact hinside tail htail

/-- Bytes that hold the bits and less than a byte more. -/
theorem ofBytes {scan : List Bool → Option β} {bits pad : List Bool} {out : β}
    (h : Delimits scan bits out) {order : Bits.Order} {data : Bytes}
    (hdata : Bits.ofBytes order data = bits ++ pad) (hpad : pad.length < 8) :
    Delimits (fun data => scan (Bits.ofBytes order data)) data out := by
  constructor
  · intro more
    rw [Bits.ofBytes_append, hdata, List.append_assoc, h.settled]
  · intro short hshort hne
    have hlt := length_lt_of_prefix hshort hne
    have hbits := congrArg List.length hdata
    rw [Bits.length_ofBytes, List.length_append] at hbits
    have hfew : (Bits.ofBytes order short).length < bits.length := by
      rw [Bits.length_ofBytes]
      omega
    obtain ⟨more, rfl⟩ := hshort
    have hfront : Bits.ofBytes order short <+: bits ++ pad :=
      ⟨Bits.ofBytes order more, (Bits.ofBytes_append order short more).symm.trans hdata⟩
    apply h.least
    · exact List.prefix_of_prefix_length_le hfront (List.prefix_append bits pad) (Nat.le_of_lt hfew)
    · intro hsame
      rw [hsame] at hfew
      exact Nat.lt_irrefl _ hfew

end Delimits
end PdfStream
