import PdfStream.Sink

/-!
What a sink may look like after more output. Whatever a sink answers, nothing it holds is lost and
its way of answering stays the same.
-/
namespace PdfStream.Sink

/-- `t` is `s` after some more calls. -/
def Precedes (s t : Sink) : Prop := t.policy = s.policy ∧ s.content <+: t.content

theorem Precedes.refl (s : Sink) : s.Precedes s := ⟨rfl, List.prefix_rfl⟩

theorem Precedes.trans {s t u : Sink} (h : s.Precedes t) (h' : t.Precedes u) : s.Precedes u :=
  ⟨h'.1.trans h.1, h.2.trans h'.2⟩

theorem precedes_write (s : Sink) (span : Bytes) : s.Precedes (s.write span).1 := by
  unfold write
  split
  · exact ⟨rfl, List.prefix_rfl⟩
  · refine ⟨rfl, ?_⟩
    simp [content]

theorem precedes_writeAll (s : Sink) (span : Bytes) : s.Precedes (s.writeAll span).1 := by
  fun_induction writeAll s span with
  | case1 s => exact .refl s
  | case2 s span _ t e h =>
    have hw := precedes_write s span
    rwa [h] at hw
  | case3 s span _ t h =>
    have hw := precedes_write s span
    rwa [h] at hw
  | case4 s span _ t n h ih =>
    have hw := precedes_write s span
    rw [h] at hw
    exact hw.trans ih

theorem precedes_put (s : Sink) (span : Bytes) : s.Precedes (s.put span).1 := by
  have hw := precedes_write s span
  unfold put
  split
  · exact .refl s
  · split
    · exact precedes_writeAll s span
    · split
      next h => rwa [h] at hw
      next h => rwa [h] at hw

theorem precedes_deliver (s : Sink) (spans : List Bytes) : s.Precedes (s.deliver spans).1 := by
  induction spans generalizing s with
  | nil => exact .refl s
  | cons span spans ih =>
    have hp := precedes_put s span
    rw [deliver]
    split
    next h =>
      rw [h] at hp
      exact hp.trans (ih _)
    next h => rwa [h] at hp

theorem precedes_flush (s : Sink) : s.Precedes s.flush.1 := ⟨rfl, List.prefix_rfl⟩

/-- An error that the sink is the cause of: one that it answers with, or that of a write which it does
not take whole. -/
inductive Causes (s : Sink) : Error → Prop
  | write {held calls offered : Nat} {e : Error}
    (answer : s.policy.onWrite held calls offered = .error e) : Causes s e
  | flush {flushes : Nat} {e : Error} (answer : s.policy.onFlush flushes = .error e) : Causes s e
  | short (expected written : Nat) : Causes s (.shortWrite expected written)
  | stuck : Causes s (.io .nothingAccepted)

section
variable {s t : Sink} {span : Bytes} {e : Error}

theorem Precedes.causes (h : s.Precedes t) (he : t.Causes e) : s.Causes e := by
  obtain ⟨hpolicy, -⟩ := h
  cases he with
  | write answer =>
    rw [hpolicy] at answer
    exact .write answer
  | flush answer =>
    rw [hpolicy] at answer
    exact .flush answer
  | short expected written => exact .short expected written
  | stuck => exact .stuck

theorem causes_of_write (h : s.write span = (t, .error e)) : s.Causes e := by
  unfold write at h
  split at h
  next answer =>
    cases h
    exact .write answer
  next => cases h

theorem causes_of_writeAll (h : s.writeAll span = (t, .error e)) : s.Causes e := by
  fun_induction writeAll s span with
  | case1 s => cases h
  | case2 s span _ u e' hwrite =>
    cases h
    exact causes_of_write hwrite
  | case3 s span _ u hwrite =>
    cases h
    exact .stuck
  | case4 s span _ u n hwrite ih =>
    have hlater := s.precedes_write span
    rw [hwrite] at hlater
    exact hlater.causes (ih h)

theorem causes_of_put (h : s.put span = (t, .error e)) : s.Causes e := by
  unfold put at h
  split at h
  · cases h
  · split at h
    · exact causes_of_writeAll h
    · split at h
      next hwrite =>
        cases h
        exact causes_of_write hwrite
      next n hwrite =>
        obtain ⟨-, hanswer⟩ := Prod.mk.inj h
        split at hanswer
        · cases hanswer
        · cases hanswer
          exact .short span.length n

theorem causes_of_deliver {spans : List Bytes} (h : s.deliver spans = (t, .error e)) :
    s.Causes e := by
  induction spans generalizing s with
  | nil => cases h
  | cons span spans ih =>
    have hlater := s.precedes_put span
    rw [deliver] at h
    split at h
    next hput =>
      rw [hput] at hlater
      exact hlater.causes (ih h)
    next hput =>
      cases h
      exact causes_of_put hput

end

/-- The sink takes everything. -/
def IsBuffer (s : Sink) : Prop := s.policy = .buffer

theorem put_of_isBuffer {s : Sink} (h : s.IsBuffer) (span : Bytes) :
    ∃ t, s.put span = (t, .ok ()) ∧ t.IsBuffer ∧ t.content = s.content ++ span := by
  obtain ⟨policy, held, calls, flushes⟩ := s
  cases h
  unfold put
  split
  next hnil =>
    refine ⟨_, rfl, rfl, ?_⟩
    rw [hnil, List.append_nil]
  next =>
    refine ⟨⟨.buffer, held ++ span, calls + 1, flushes⟩, ?_, rfl, ?_⟩
    · simp [write, SinkPolicy.buffer]
    · simp [content]

theorem deliver_of_isBuffer {s : Sink} (h : s.IsBuffer) (spans : List Bytes) :
    ∃ t, s.deliver spans = (t, .ok ()) ∧ t.IsBuffer ∧
      t.content = s.content ++ spans.flatten := by
  induction spans generalizing s with
  | nil => exact ⟨s, rfl, h, (List.append_nil s.content).symm⟩
  | cons span spans ih =>
    obtain ⟨t, hput, ht, hcontent⟩ := put_of_isBuffer h span
    obtain ⟨u, hdeliver, hu, hall⟩ := ih ht
    refine ⟨u, ?_, hu, ?_⟩
    · rw [deliver, hput]
      exact hdeliver
    · rw [hall, hcontent, List.flatten_cons, List.append_assoc]

theorem flush_of_isBuffer {s : Sink} (h : s.IsBuffer) :
    ∃ t, s.flush = (t, .ok ()) ∧ t.IsBuffer ∧ t.content = s.content := by
  refine ⟨{ s with flushes := s.flushes + 1 }, ?_, h, rfl⟩
  rw [flush, h]
  rfl

end PdfStream.Sink
