import PdfStream.Proofs.Asn1.Time
import PdfStream.Signing.SignedAttributes

/-!
The signing time. From the first second of 1970 to the last of 9999 there is an attribute, which
says what the clock showed at that second; before and after there is none.
-/
namespace PdfStream.Attribute
open Der CivilTime

/-- The whole seconds since the start of 1970. -/
def wholeSeconds (t : Instant) : Nat := (t.nanoseconds / 1000000000).toNat

section
variable {t : Instant}

theorem signingTime_of_inRange (hstart : 0 ≤ t.nanoseconds)
    (hend : t.nanoseconds ≤ Instant.lastSecond * 1000000000) :
    signingTime t =
      .ok (single signingTimeOid (Time.ofCivil (clock (wholeSeconds t))).element) := by
  rw [signingTime, Instant.civil?, if_pos ⟨hstart, hend⟩, clock_eq_ofSeconds]
  rfl

theorem signingTime_of_outOfRange
    (h : ¬(0 ≤ t.nanoseconds ∧ t.nanoseconds ≤ Instant.lastSecond * 1000000000)) :
    signingTime t = .error (.asn1 .timeOutOfRange) := by
  rw [signingTime, Instant.civil?, if_neg h]

theorem signingTime_eq_ok_iff {a : Attribute} : signingTime t = .ok a ↔
    (0 ≤ t.nanoseconds ∧ t.nanoseconds ≤ Instant.lastSecond * 1000000000) ∧
      a = single signingTimeOid (Time.ofCivil (clock (wholeSeconds t))).element := by
  by_cases h : 0 ≤ t.nanoseconds ∧ t.nanoseconds ≤ Instant.lastSecond * 1000000000
  · rw [signingTime_of_inRange h.1 h.2, Except.ok.injEq, eq_comm]
    exact (and_iff_right h).symm
  · rw [signingTime_of_outOfRange h]
    exact ⟨nofun, fun hok => absurd hok.1 h⟩

theorem wholeSeconds_le (hend : t.nanoseconds ≤ Instant.lastSecond * 1000000000) :
    wholeSeconds t ≤ Instant.lastSecond := by
  unfold wholeSeconds
  omega

end

/-- The value of the attribute for a second. -/
theorem ofElement?_clock {seconds : Nat} (h : seconds ≤ Instant.lastSecond) :
    Time.ofElement? (Time.ofCivil (clock seconds)).element =
      some (Time.ofCivil (clock seconds)) := by
  have hyear := year_clock_le h
  rw [clock_eq_ofSeconds] at hyear ⊢
  exact Time.ofElement?_ofCivil (onCalendar_ofSeconds seconds) hyear

/-- There is an attribute for the instants from 1970-01-01T00:00:00Z to 9999-12-31T23:59:59Z and for
no others. Its one value is the date that the clock shows after the whole seconds of the instant, as
UTCTime before 2050 and as GeneralizedTime from then on, and reading the value gives that date. So
no two seconds share a value. -/
theorem signingTime_readsBack (t : Instant) :
    (clock 0 = ⟨1970, 1, 1, 0, 0, 0⟩ ∧ clock Instant.lastSecond = ⟨9999, 12, 31, 23, 59, 59⟩) ∧
    ((∃ a, signingTime t = .ok a) ↔
      0 ≤ t.nanoseconds ∧ t.nanoseconds ≤ Instant.lastSecond * 1000000000) ∧
    ((¬∃ a, signingTime t = .ok a) → ∃ fault, signingTime t = .error (.asn1 fault)) ∧
    (∀ a, signingTime t = .ok a → ∃ date value, date = clock (wholeSeconds t) ∧
      a = single signingTimeOid value ∧
      (date.year < 2050 ∧ value.tag = Tag.utcTime ∧ Time.IsUtcText date value.content ∨
        2050 ≤ date.year ∧ value.tag = Tag.generalizedTime ∧
          Time.IsGeneralizedText date value.content) ∧
      (Time.ofElement? value).map Time.date = some date) ∧
    ∀ u a b, signingTime t = .ok a → signingTime u = .ok b →
      wholeSeconds t ≠ wholeSeconds u → a.values ≠ b.values := by
  refine ⟨⟨rfl, clock_lastSecond⟩, ?_, ?_, ?_, ?_⟩
  · simp only [signingTime_eq_ok_iff, exists_and_left, exists_eq, and_true]
  · intro hnone
    refine ⟨.timeOutOfRange, signingTime_of_outOfRange fun h => hnone ?_⟩
    exact ⟨_, signingTime_of_inRange h.1 h.2⟩
  · intro a ha
    obtain ⟨⟨-, hend⟩, rfl⟩ := signingTime_eq_ok_iff.1 ha
    have hlast := wholeSeconds_le hend
    have hyear := year_clock_le hlast
    have hdate : (clock (wholeSeconds t)).OnCalendar := by
      rw [clock_eq_ofSeconds]
      exact onCalendar_ofSeconds _
    refine ⟨_, _, rfl, rfl, ?_, ?_⟩
    · unfold Time.ofCivil
      split_ifs with h2050
      · exact .inl ⟨h2050, rfl, Time.isUtcText_text hdate h2050⟩
      · exact .inr ⟨Nat.le_of_not_lt h2050, rfl, Time.isGeneralizedText_text hdate hyear⟩
    · rw [ofElement?_clock hlast]
      rfl
  · intro u a b ha hb hseconds hsame
    obtain ⟨⟨-, htend⟩, rfl⟩ := signingTime_eq_ok_iff.1 ha
    obtain ⟨⟨-, huend⟩, rfl⟩ := signingTime_eq_ok_iff.1 hb
    have hvalue : (Time.ofCivil (clock (wholeSeconds t))).element =
        (Time.ofCivil (clock (wholeSeconds u))).element := List.head_eq_of_cons_eq hsame
    have hread := congrArg Time.ofElement? hvalue
    rw [ofElement?_clock (wholeSeconds_le htend), ofElement?_clock (wholeSeconds_le huend)] at hread
    have hdate : clock (wholeSeconds t) = clock (wholeSeconds u) :=
      congrArg Time.date (Option.some.inj hread)
    exact hseconds (clock_injective hdate)

end PdfStream.Attribute
