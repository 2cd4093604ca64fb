import PdfStream.Proofs.Sink

/-!
What reaches a sink. Spans are offered one by one as long as the sink takes each of them whole; the
first that it does not take whole is the last that it sees.
-/
namespace PdfStream.Sink

/-- One write as the caller sees it: how much of the span was taken, or the sink's error. A sink that
retries takes all or fails. -/
def offer (s : Sink) (span : Bytes) : Sink × Except Error Nat :=
  if s.policy.retrying then
    match s.writeAll span with
    | (t, .ok ()) => (t, .ok span.length)
    | (t, .error e) => (t, .error e)
  else s.write span

theorem put_eq_offer (s : Sink) {span : Bytes} (h : span ≠ []) : s.put span =
    match s.offer span with
    | (t, .error e) => (t, .error e)
    | (t, .ok n) => (t, if n = span.length then .ok () else .error (.shortWrite span.length n)) := by
  simp only [put, h, ↓reduceIte, offer]
  cases s.policy.retrying with
  | false => rcases s.write span with ⟨t, e | n⟩ <;> rfl
  | true => rcases s.writeAll span with ⟨t, e | ⟨⟩⟩ <;> simp

theorem write_spec (s : Sink) (span : Bytes) : (s.write span).1.flushes = s.flushes ∧
    ∃ n ≤ span.length, (s.write span).1.content = s.content ++ span.take n ∧
      ∀ k, (s.write span).2 = .ok k → k = n := by
  unfold write
  split
  · exact ⟨rfl, 0, Nat.zero_le _, by simp [content], nofun⟩
  next n _ =>
    refine ⟨rfl, min n span.length, Nat.min_le_right _ _, by simp [content], ?_⟩
    rintro k ⟨⟩
    rfl

theorem writeAll_spec (s : Sink) (span : Bytes) : (s.writeAll span).1.flushes = s.flushes ∧
    ∃ n ≤ span.length, (s.writeAll span).1.content = s.content ++ span.take n ∧
      ((s.writeAll span).2 = .ok () → n = span.length) := by
  fun_induction writeAll s span with
  | case1 s => exact ⟨rfl, 0, Nat.le_refl 0, by simp, fun _ => rfl⟩
  | case2 s span hne t e h =>
    obtain ⟨hflushes, n, hn, hcontent, -⟩ := write_spec s span
    rw [h] at hflushes hcontent
    refine ⟨hflushes, n, hn, hcontent, ?_⟩
    rintro ⟨⟩
  | case3 s span hne t h =>
    obtain ⟨hflushes, n, hn, hcontent, -⟩ := write_spec s span
    rw [h] at hflushes hcontent
    refine ⟨hflushes, n, hn, hcontent, ?_⟩
    rintro ⟨⟩
  | case4 s span hne t n h ih =>
    obtain ⟨hflushes, k, hk, hcontent, hall⟩ := write_spec s span
    rw [h] at hflushes hcontent hall
    cases hall _ rfl
    obtain ⟨hrest, m, hm, hmore, hwhole⟩ := ih
    rw [List.length_drop] at hm hwhole
    refine ⟨hrest.trans hflushes, n + 1 + m, by omega, ?_, fun hok => ?_⟩
    · rw [hmore, hcontent, List.append_assoc, List.take_add]
    · have := hwhole hok
      omega

/-- An offer leaves a part of the span in the sink, and flushes nothing. -/
theorem offer_spec (s : Sink) (span : Bytes) : (s.offer span).1.flushes = s.flushes ∧
    ∃ n ≤ span.length, (s.offer span).1.content = s.content ++ span.take n ∧
      ∀ k, (s.offer span).2 = .ok k → k = n := by
  unfold offer
  split
  · obtain ⟨hflushes, n, hn, hcontent, hall⟩ := writeAll_spec s span
    revert hflushes hcontent hall
    rcases s.writeAll span with ⟨t, e | ⟨⟩⟩
    · intro hflushes hcontent _
      exact ⟨hflushes, n, hn, hcontent, nofun⟩
    · intro hflushes hcontent hall
      refine ⟨hflushes, n, hn, hcontent, ?_⟩
      rintro k ⟨⟩
      exact (hall rfl).symm
  · exact write_spec s span

/-- The sink was offered these spans, took each of them whole, and was asked nothing else. -/
inductive Delivers : Sink → List Bytes → Sink → Prop
  | nil (s : Sink) : Delivers s [] s
  | cons {s t u : Sink} {span : Bytes} {spans : List Bytes} (nonempty : span ≠ [])
    (taken : s.offer span = (t, .ok span.length)) (rest : Delivers t spans u) :
    Delivers s (span :: spans) u

/-- The sink does not take the span whole: it takes less, or fails. -/
inductive Rejects (s : Sink) (span : Bytes) : Error → Sink → Prop
  | short {t : Sink} {n : Nat} (answer : s.offer span = (t, .ok n)) (less : n < span.length) :
    Rejects s span (.shortWrite span.length n) t
  | failed {t : Sink} {e : Error} (answer : s.offer span = (t, .error e)) : Rejects s span e t

section
variable {s t u : Sink} {spans more : List Bytes} {span : Bytes} {e : Error}

theorem Delivers.append (h : s.Delivers spans t) (h' : t.Delivers more u) :
    s.Delivers (spans ++ more) u := by
  induction h with
  | nil => exact h'
  | cons nonempty taken _ ih => exact .cons nonempty taken (ih h')

theorem Delivers.content (h : s.Delivers spans t) : t.content = s.content ++ spans.flatten := by
  induction h with
  | nil s => simp
  | @cons s t _ span _ _ taken _ ih =>
    obtain ⟨-, n, -, hcontent, hall⟩ := s.offer_spec span
    rw [taken] at hcontent hall
    cases hall _ rfl
    rw [ih, hcontent, List.take_length, List.flatten_cons, List.append_assoc]

theorem Delivers.flushes (h : s.Delivers spans t) : t.flushes = s.flushes := by
  induction h with
  | nil => rfl
  | @cons s _ _ span _ _ taken _ ih =>
    obtain ⟨hflushes, -⟩ := s.offer_spec span
    rw [taken] at hflushes
    exact ih.trans hflushes

theorem Rejects.content (h : s.Rejects span e t) : ∃ given, t.content = s.content ++ given ∧
    given <+: span := by
  obtain ⟨-, n, -, hcontent, -⟩ := s.offer_spec span
  refine ⟨span.take n, ?_, span.take_prefix n⟩
  cases h with
  | short answer less => rwa [answer] at hcontent
  | failed answer => rwa [answer] at hcontent

theorem Rejects.flushes (h : s.Rejects span e t) : t.flushes = s.flushes := by
  obtain ⟨hflushes, -⟩ := s.offer_spec span
  cases h with
  | short answer less => rwa [answer] at hflushes
  | failed answer => rwa [answer] at hflushes

end

/-- An offer that is not taken whole is the answer of the call. -/
theorem put_spec (s : Sink) {span : Bytes} (h : span ≠ []) :
    (∃ t, s.put span = (t, .ok ()) ∧ s.offer span = (t, .ok span.length)) ∨
    ∃ e t, s.put span = (t, .error e) ∧ s.Rejects span e t := by
  obtain ⟨-, n, hn, -, hall⟩ := s.offer_spec span
  rw [put_eq_offer s h]
  rcases hoffer : s.offer span with ⟨t, e | k⟩
  · exact .inr ⟨e, t, rfl, .failed hoffer⟩
  · rw [hoffer] at hall
    have hk : k ≤ span.length := hall k rfl ▸ hn
    by_cases hwhole : k = span.length
    · left
      exact ⟨t, by simp [hwhole], by rw [hwhole]⟩
    · right
      exact ⟨_, t, by simp [hwhole], .short hoffer (Nat.lt_of_le_of_ne hk hwhole)⟩

/-- By induction on the spans: all are taken, or one is not and no further one is offered. -/
theorem deliver_spec (s : Sink) (spans : List Bytes) :
    (∃ given t, s.deliver spans = (t, .ok ()) ∧ s.Delivers given t ∧
      given.flatten = spans.flatten) ∨
    ∃ given u span e t, s.deliver spans = (t, .error e) ∧ s.Delivers given u ∧
      u.Rejects span e t ∧ given.flatten ++ span <+: spans.flatten := by
  induction spans generalizing s with
  | nil => exact .inl ⟨[], s, rfl, .nil s, rfl⟩
  | cons span spans ih =>
    by_cases hspan : span = []
    · have hskip : s.deliver (span :: spans) = s.deliver spans := by
        rw [deliver, put, if_pos hspan]
      have hflatten : (span :: spans).flatten = spans.flatten := by simp [hspan]
      rw [hskip, hflatten]
      exact ih s
    rcases s.put_spec hspan with ⟨t, hput, htaken⟩ | ⟨e, t, hput, hrejects⟩
    · have hnext : s.deliver (span :: spans) = t.deliver spans := by rw [deliver, hput]
      rw [hnext]
      rcases ih t with ⟨given, u, hdeliver, hgiven, hsame⟩ |
        ⟨given, u, last, e, v, hdeliver, hgiven, hrejects, hprefix⟩
      · left
        refine ⟨span :: given, u, hdeliver, .cons hspan htaken hgiven, ?_⟩
        simp [hsame]
      · right
        refine ⟨span :: given, u, last, e, v, hdeliver, .cons hspan htaken hgiven, hrejects, ?_⟩
        simpa using hprefix
    · right
      refine ⟨[], s, span, e, t, by rw [deliver, hput], .nil s, hrejects, ?_⟩
      simp

end PdfStream.Sink
