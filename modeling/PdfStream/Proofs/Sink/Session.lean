import PdfStream.Proofs.Coder
import PdfStream.Proofs.Engine.Lifecycle
import PdfStream.Proofs.Sink.Delivery

/-!
Sessions as the sink sees them: tasks of writing that do not depend on the sink, carried out up to the
first failure. Next to a sink that takes everything, none that takes less or fails loses a byte
without the caller being told.
-/
namespace PdfStream

/-- Writes the spans, then reports the fault if there is one, and otherwise flushes if asked. -/
def Sink.carry (s : Sink) (flush : Bool) (spans : List Bytes) (fault : Option Error) :
    Sink × Except Error Unit :=
  match s.deliver spans with
  | (s, .error e) => (s, .error e)
  | (s, .ok ()) =>
    match fault with
    | some e => (s, .error e)
    | none => if flush then s.flush else (s, .ok ())

theorem Sink.carryOut_eq_carry (s : Sink) (flush : Bool) (step : Step Codec) :
    s.carryOut flush step = s.carry flush step.spans.toList step.fault := rfl

/-- What a call asks of the sink. -/
inductive SinkTask where
  /-- Spans to write, and the fault to stop with after them. -/
  | write (spans : List Bytes) (fault : Option Error)
  /-- The last spans of a session. They are flushed. -/
  | close (spans : List Bytes) (fault : Option Error)
  /-- Nothing more. -/
  | release

/-- A call on an open session. -/
inductive SessionCall where
  | block (direction : Direction) (data : Bytes)
  | finish (direction : Direction)
  | fail

/-- The phases in which a call may be made. -/
def SessionCall.Allowed (phase : Phase) : SessionCall → Prop
  | .block direction _ | .finish direction => phase = direction.phase
  | .fail => phase.isActive

theorem SessionCall.not_allowed_of_inactive {phase : Phase} (h : phase.isActive = false)
    (c : SessionCall) : ¬c.Allowed phase := by
  cases c with
  | block direction _ | finish direction => exact direction.phase_ne h
  | fail => exact Bool.eq_false_iff.1 h

/-- What the owner of the sink sees of a session: the sink, the last answer that was not a refusal,
and the phase after it. -/
structure SessionView where
  sink : Sink
  reply : Reply
  phase : Phase

namespace SessionView

/-- After one more answer. A refusal changes nothing. -/
def next (v : SessionView) (reply : Reply) (session : Session) : SessionView :=
  match reply with
  | .refused _ => v
  | reply => ⟨(reply.sink?.or session.sink?).getD v.sink, reply, session.phase⟩

/-- After calls on an object with a session. -/
def follow {M : Type} (call : M → SessionCall → M × Reply) (session : M → Session) :
    M → SessionView → List SessionCall → SessionView
  | _, v, [] => v
  | m, v, c :: calls =>
    let (m, reply) := call m c
    follow call session m (v.next reply (session m)) calls

/-- The tasks carried out one by one, up to the end of the session or the first failure. -/
def play (direction : Direction) (v : SessionView) : List SinkTask → SessionView
  | [] => v
  | .write spans fault :: tasks =>
    match v.sink.carry false spans fault with
    | (t, .ok ()) => play direction ⟨t, .done, direction.phase⟩ tasks
    | (t, .error e) => ⟨t, .broken e t, .failed⟩
  | .close spans fault :: _ =>
    match v.sink.carry true spans fault with
    | (t, .ok ()) => ⟨t, .returned t, .idle⟩
    | (t, .error e) => ⟨t, .broken e t, .failed⟩
  | .release :: _ => ⟨v.sink, .returned v.sink, .failed⟩

end SessionView

/-- How a session on the sink `s` may stand, next to the same calls on a sink that takes
everything. -/
inductive Kept (s : Sink) (ideal : SessionView) : SessionView → Prop
  /-- Every write was taken whole, and nothing was flushed. -/
  | taken {spans : List Bytes} {t : Sink} {reply : Reply} {phase : Phase}
    (delivered : s.Delivers spans t) (all : spans.flatten = ideal.sink.content)
    (answer : reply.error? = ideal.reply.error?) (same : phase = ideal.phase)
    (unfinished : phase ≠ .idle) : Kept s ideal ⟨t, reply, phase⟩
  /-- Every write was taken whole, and after the last one the sink was flushed. -/
  | flushed {spans : List Bytes} {t u : Sink} (delivered : s.Delivers spans t)
    (all : spans.flatten = ideal.sink.content) (ended : ideal.phase = .idle)
    (flush : t.flush = (u, .ok ())) : Kept s ideal ⟨u, .returned u, .idle⟩
  /-- A write was not taken whole. It was the last thing asked of the sink. -/
  | rejected {spans : List Bytes} {span : Bytes} {t u : Sink} {e : Error}
    (delivered : s.Delivers spans t) (rejects : t.Rejects span e u)
    (part : spans.flatten ++ span <+: ideal.sink.content) :
    Kept s ideal ⟨u, .broken e u, .failed⟩
  /-- Every write was taken whole, but the flush after the last one failed. -/
  | unflushed {spans : List Bytes} {t u : Sink} {e : Error} (delivered : s.Delivers spans t)
    (all : spans.flatten = ideal.sink.content) (ended : ideal.phase = .idle)
    (flush : t.flush = (u, .error e)) : Kept s ideal ⟨u, .broken e u, .failed⟩

/-- No output is lost silently: what the same calls put into a sink that takes everything arrives in
the sink `s`, or the caller is told. -/
structure KeepsOutput (s : Sink) (ideal now : SessionView) : Prop where
  history : Kept s ideal now
  /-- Whenever the sink is looked at, it holds what it held at first and a part of the output. -/
  held : ∀ v, s.Precedes v → v.Precedes now.sink →
    ∃ given, v.content = s.content ++ given ∧ given <+: ideal.sink.content
  /-- After a call that went well it holds all the output. -/
  whole : now.reply.error? = none → now.sink.content = s.content ++ ideal.sink.content
  /-- It is flushed with the last byte of the session written. -/
  flushedLast : now.sink.flushes ≠ s.flushes →
    ideal.phase = .idle ∧ now.sink.content = s.content ++ ideal.sink.content
  flushedAtMostOnce : now.sink.flushes ≤ s.flushes + 1
  flushedOnce : now.phase = .idle → now.sink.flushes = s.flushes + 1

section
variable {s t u b : Sink} {spans : List Bytes} {ideal now : SessionView}

theorem Sink.content_of_flush {r : Except Error Unit} (h : t.flush = (u, r)) :
    u.content = t.content := by
  cases h
  rfl

theorem Sink.flushes_of_flush {r : Except Error Unit} (h : t.flush = (u, r)) :
    u.flushes = t.flushes + 1 := by
  cases h
  rfl

theorem Kept.content (h : Kept s ideal now) :
    ∃ given, now.sink.content = s.content ++ given ∧ given <+: ideal.sink.content := by
  cases h with
  | taken delivered all => exact ⟨_, delivered.content, all ▸ List.prefix_rfl⟩
  | flushed delivered all _ flush | unflushed delivered all _ flush =>
    exact ⟨_, (Sink.content_of_flush flush).trans delivered.content, all ▸ List.prefix_rfl⟩
  | @rejected spans _ _ _ _ delivered rejects part =>
    obtain ⟨given, hcontent, hgiven⟩ := rejects.content
    refine ⟨spans.flatten ++ given, ?_, ?_⟩
    · rw [hcontent, delivered.content, List.append_assoc]
    · exact ((List.prefix_append_right_inj _).2 hgiven).trans part

/-- Without a flush the count stands; with one the session was over and all was written. -/
theorem Kept.flushes (h : Kept s ideal now) :
    (now.phase ≠ .idle ∧ now.sink.flushes = s.flushes) ∨
    now.sink.flushes = s.flushes + 1 ∧ ideal.phase = .idle ∧
      now.sink.content = s.content ++ ideal.sink.content := by
  cases h with
  | taken delivered _ _ _ unfinished => exact .inl ⟨unfinished, delivered.flushes⟩
  | rejected delivered rejects _ =>
    exact .inl ⟨nofun, rejects.flushes.trans delivered.flushes⟩
  | flushed delivered all ended flush | unflushed delivered all ended flush =>
    right
    refine ⟨?_, ended, ?_⟩
    · rw [Sink.flushes_of_flush flush, delivered.flushes]
    · rw [Sink.content_of_flush flush, delivered.content, all]

theorem Kept.keepsOutput (h : Kept s ideal now) : KeepsOutput s ideal now where
  history := h
  held := by
    intro v hbefore hafter
    obtain ⟨given, hcontent, hgiven⟩ := h.content
    obtain ⟨part, hpart⟩ := hbefore.2
    refine ⟨part, hpart.symm, ?_⟩
    have hprefix := hafter.2
    rw [← hpart, hcontent, List.prefix_append_right_inj] at hprefix
    exact hprefix.trans hgiven
  whole := by
    intro hok
    cases h with
    | taken delivered all => rw [delivered.content, all]
    | flushed delivered all _ flush =>
      rw [Sink.content_of_flush flush, delivered.content, all]
    | rejected | unflushed => cases hok
  flushedLast := by
    intro hflushed
    rcases h.flushes with ⟨-, hsame⟩ | ⟨-, hlast⟩
    · exact absurd hsame hflushed
    · exact hlast
  flushedAtMostOnce := by
    rcases h.flushes with ⟨-, hcount⟩ | ⟨hcount, -⟩ <;> omega
  flushedOnce := by
    intro hidle
    rcases h.flushes with ⟨hphase, -⟩ | ⟨hcount, -⟩
    · exact absurd hidle hphase
    · exact hcount

/-- A sink that takes everything leaves only the fault to report. -/
theorem Sink.carry_of_isBuffer (h : b.IsBuffer) (flush : Bool) (spans : List Bytes)
    (fault : Option Error) : ∃ c, c.IsBuffer ∧ c.content = b.content ++ spans.flatten ∧
      b.carry flush spans fault = (c, match fault with
        | some e => .error e
        | none => .ok ()) := by
  obtain ⟨c, hdeliver, hc, hcontent⟩ := deliver_of_isBuffer h spans
  obtain ⟨d, hflush, hd, hsame⟩ := flush_of_isBuffer hc
  cases fault with
  | some e => exact ⟨c, hc, hcontent, by simp only [carry, hdeliver]⟩
  | none =>
    cases flush with
    | false => exact ⟨c, hc, hcontent, by simp [carry, hdeliver]⟩
    | true => exact ⟨d, hd, hsame.trans hcontent, by simp [carry, hdeliver, hflush]⟩

theorem Sink.carry_spec (s : Sink) (flush : Bool) (spans : List Bytes) (fault : Option Error) :
    (∃ given u span e t, s.carry flush spans fault = (t, .error e) ∧ s.Delivers given u ∧
      u.Rejects span e t ∧ given.flatten ++ span <+: spans.flatten) ∨
    ∃ given t, s.Delivers given t ∧ given.flatten = spans.flatten ∧
      s.carry flush spans fault = match fault with
        | some e => (t, .error e)
        | none => if flush then t.flush else (t, .ok ()) := by
  rcases s.deliver_spec spans with ⟨given, t, hdeliver, hgiven, hsame⟩ |
    ⟨given, u, span, e, t, hdeliver, hgiven, hrejects, hpart⟩
  · right
    exact ⟨given, t, hgiven, hsame, by simp only [carry, hdeliver]⟩
  · left
    exact ⟨given, u, span, e, t, by simp only [carry, hdeliver], hgiven, hrejects, hpart⟩

theorem prefix_play (h : b.IsBuffer) (direction : Direction) (reply : Reply) (phase : Phase)
    (tasks : List SinkTask) :
    b.content <+: (SessionView.play direction ⟨b, reply, phase⟩ tasks).sink.content := by
  induction tasks generalizing b reply phase with
  | nil => exact List.prefix_rfl
  | cons task tasks ih =>
    cases task with
    | write spans fault =>
      obtain ⟨c, hc, hcontent, hcarry⟩ := Sink.carry_of_isBuffer h false spans fault
      have hgrown : b.content <+: c.content := hcontent ▸ List.prefix_append _ _
      cases fault with
      | some e => simpa only [SessionView.play, hcarry] using hgrown
      | none => simpa only [SessionView.play, hcarry] using hgrown.trans (ih hc _ _)
    | close spans fault =>
      obtain ⟨c, -, hcontent, hcarry⟩ := Sink.carry_of_isBuffer h true spans fault
      have hgrown : b.content <+: c.content := hcontent ▸ List.prefix_append _ _
      cases fault with
      | some e => simpa only [SessionView.play, hcarry] using hgrown
      | none => simpa only [SessionView.play, hcarry] using hgrown
    | release => exact List.prefix_rfl

/-- The same spans for two sinks: one that takes everything and holds what `s` was given so far, and
`s` itself after that. -/
theorem kept_carry (ht : s.Delivers spans t) (hb : b.IsBuffer)
    (hcontent : b.content = spans.flatten) (flush : Bool) (more : List Bytes)
    (fault : Option Error) :
    ∃ c, c.IsBuffer ∧
      b.carry flush more fault = (c, match fault with
        | some e => .error e
        | none => .ok ()) ∧
      ((∃ e v, t.carry flush more fault = (v, .error e) ∧
          ∀ {ideal : SessionView}, c.content <+: ideal.sink.content →
            Kept s ideal ⟨v, .broken e v, .failed⟩) ∨
        ∃ given u, s.Delivers given u ∧ given.flatten = c.content ∧
          t.carry flush more fault = match fault with
            | some e => (u, .error e)
            | none => if flush then u.flush else (u, .ok ())) := by
  obtain ⟨c, hc, hgrown, hideal⟩ := Sink.carry_of_isBuffer hb flush more fault
  rw [hcontent] at hgrown
  refine ⟨c, hc, hideal, ?_⟩
  rcases t.carry_spec flush more fault with
    ⟨given, u, span, e, v, hreal, hgiven, hrejects, hpart⟩ | ⟨given, u, hgiven, hsame, hreal⟩
  · left
    refine ⟨e, v, hreal, fun hafter => .rejected (ht.append hgiven) hrejects ?_⟩
    have hbefore : (spans ++ given).flatten ++ span <+: c.content := by
      rw [List.flatten_append, List.append_assoc, hgrown]
      exact (List.prefix_append_right_inj _).2 hpart
    exact hbefore.trans hafter
  · right
    refine ⟨spans ++ given, u, ht.append hgiven, ?_, hreal⟩
    rw [List.flatten_append, hsame, hgrown]

/-- By induction on the tasks, next to a sink that takes everything and holds what `s` was given so
far. -/
theorem kept_play (ht : s.Delivers spans t) (hb : b.IsBuffer) (hcontent : b.content = spans.flatten)
    {reply reply' : Reply} (hreply : reply.error? = reply'.error?) {phase : Phase}
    (hphase : phase ≠ .idle) (direction : Direction) (tasks : List SinkTask) :
    Kept s (SessionView.play direction ⟨b, reply', phase⟩ tasks)
      (SessionView.play direction ⟨t, reply, phase⟩ tasks) := by
  induction tasks generalizing t b spans reply reply' phase with
  | nil => exact .taken ht hcontent.symm hreply rfl hphase
  | cons task tasks ih =>
    cases task with
    | write more fault =>
      obtain ⟨c, hc, hideal, ⟨e, v, hreal, hkept⟩ | ⟨given, u, hgiven, hall, hreal⟩⟩ :=
        kept_carry ht hb hcontent false more fault
      · cases fault with
        | some e' =>
          simp only [SessionView.play, hideal, hreal]
          exact hkept List.prefix_rfl
        | none =>
          simp only [SessionView.play, hideal, hreal]
          exact hkept (prefix_play hc direction _ _ tasks)
      · cases fault with
        | some e =>
          simp only [SessionView.play, hideal, hreal]
          exact .taken hgiven hall rfl rfl nofun
        | none =>
          simp only [SessionView.play, hideal, hreal]
          exact ih hgiven hc hall.symm rfl (direction.phase_ne rfl).symm
    | close more fault =>
      obtain ⟨c, -, hideal, ⟨e, v, hreal, hkept⟩ | ⟨given, u, hgiven, hall, hreal⟩⟩ :=
        kept_carry ht hb hcontent true more fault
      · cases fault with
        | some e' =>
          simp only [SessionView.play, hideal, hreal]
          exact hkept List.prefix_rfl
        | none =>
          simp only [SessionView.play, hideal, hreal]
          exact hkept List.prefix_rfl
      · cases fault with
        | some e =>
          simp only [SessionView.play, hideal, hreal]
          exact .taken hgiven hall rfl rfl nofun
        | none =>
          simp only [SessionView.play, hideal, hreal, ↓reduceIte]
          rcases hflush : u.flush with ⟨v, e | ⟨⟩⟩
          · exact .unflushed hgiven hall rfl hflush
          · exact .flushed hgiven hall rfl hflush
    | release => exact .taken ht hcontent.symm rfl rfl nofun

/-- A session whose tasks do not depend on the sink loses no output silently. -/
theorem keepsOutput_play (s : Sink) (direction : Direction) (tasks : List SinkTask) :
    KeepsOutput s (SessionView.play direction ⟨.buffer, .done, direction.phase⟩ tasks)
      (SessionView.play direction ⟨s, .done, direction.phase⟩ tasks) := by
  have hphase : direction.phase ≠ .idle := (direction.phase_ne rfl).symm
  have hempty : Sink.buffer.IsBuffer := rfl
  exact (kept_play (.nil s) hempty rfl rfl hphase direction tasks).keepsOutput

end

/-- The tasks that calls make of a coder's steps. A call in the other direction is refused. -/
def Coder.script {κ : Type} (k : Coder κ) (direction : Direction) :
    κ → List SessionCall → List SinkTask
  | _, [] => []
  | s, .block d data :: calls =>
    if d = direction then
      .write (k.block data s).spans.toList (k.block data s).fault ::
        script k direction (k.block data s).state calls
    else script k direction s calls
  | s, .finish d :: calls =>
    if d = direction then [.close (k.finish s).spans.toList (k.finish s).fault]
    else script k direction s calls
  | _, .fail :: _ => [.release]

/-- Calls on an object whose session is the work of a coder. The object with a coder's state and a
session is `place`; `leave` is what a session that ends badly makes of the state. -/
structure Serves {κ M : Type} (k : Coder κ) (direction : Direction)
    (call : M → SessionCall → M × Reply) (session : M → Session) (place : κ → Session → M)
    (leave : κ → κ) : Prop where
  session_place : ∀ s x, session (place s x) = x
  refuses : ∀ m c, ¬c.Allowed (session m).phase → ∃ e, call m c = (m, .refused e)
  block : ∀ s sink data, call (place s (.active direction sink)) (.block direction data) =
    match sink.carry false (k.block data s).spans.toList (k.block data s).fault with
    | (t, .ok ()) => (place (k.block data s).state (.active direction t), .done)
    | (t, .error e) => (place (leave (k.block data s).state) .failed, .broken e t)
  finish : ∀ s sink, call (place s (.active direction sink)) (.finish direction) =
    match sink.carry true (k.finish s).spans.toList (k.finish s).fault with
    | (t, .ok ()) => (place (k.finish s).state .idle, .returned t)
    | (t, .error e) => (place (leave (k.finish s).state) .failed, .broken e t)
  fail : ∀ s sink, call (place s (.active direction sink)) .fail =
    (place (leave s) .failed, .returned sink)

namespace Serves
variable {κ M : Type} {k : Coder κ} {direction : Direction} {call : M → SessionCall → M × Reply}
  {session : M → Session} {place : κ → Session → M} {leave : κ → κ}

theorem follow_of_inactive (h : Serves k direction call session place leave) {m : M}
    (hm : (session m).phase.isActive = false) (v : SessionView) (calls : List SessionCall) :
    SessionView.follow call session m v calls = v := by
  induction calls with
  | nil => rfl
  | cons c calls ih =>
    obtain ⟨e, hcall⟩ := h.refuses m c (c.not_allowed_of_inactive hm)
    simp only [SessionView.follow, hcall]
    exact ih

theorem follow_failed (h : Serves k direction call session place leave) (s : κ)
    (v : SessionView) (calls : List SessionCall) :
    SessionView.follow call session (place s .failed) v calls = v := by
  apply h.follow_of_inactive
  rw [h.session_place]
  rfl

theorem follow_idle (h : Serves k direction call session place leave) (s : κ)
    (v : SessionView) (calls : List SessionCall) :
    SessionView.follow call session (place s .idle) v calls = v := by
  apply h.follow_of_inactive
  rw [h.session_place]
  rfl

theorem follow_of_other (h : Serves k direction call session place leave) {s : κ} {sink : Sink}
    {c : SessionCall} (hc : ¬c.Allowed direction.phase) (v : SessionView)
    (calls : List SessionCall) :
    SessionView.follow call session (place s (.active direction sink)) v (c :: calls) =
      SessionView.follow call session (place s (.active direction sink)) v calls := by
  have hphase : (session (place s (.active direction sink))).phase = direction.phase := by
    rw [h.session_place]
    rfl
  obtain ⟨e, hcall⟩ := h.refuses (place s (.active direction sink)) c (by rwa [hphase])
  simp only [SessionView.follow, hcall]
  rfl

/-- By induction on the calls: each carries out its task on the sink, and is the last that does so if
its task is not done. -/
theorem follow_eq_play (h : Serves k direction call session place leave) (s : κ) (sink : Sink)
    (reply : Reply) (calls : List SessionCall) :
    SessionView.follow call session (place s (.active direction sink))
        ⟨sink, reply, direction.phase⟩ calls =
      SessionView.play direction ⟨sink, reply, direction.phase⟩ (k.script direction s calls) := by
  induction calls generalizing s sink reply with
  | nil => rfl
  | cons c calls ih =>
    cases c with
    | block d data =>
      by_cases hd : d = direction
      · subst hd
        simp only [SessionView.follow, Coder.script, ↓reduceIte, SessionView.play, h.block]
        rcases sink.carry false (k.block data s).spans.toList (k.block data s).fault with
          ⟨t, e | ⟨⟩⟩
        · simp only [h.session_place, h.follow_failed]
          rfl
        · simp only [h.session_place]
          exact ih _ _ _
      · have hother : ¬(SessionCall.block d data).Allowed direction.phase :=
          fun heq => hd (Direction.eq_of_phase_eq heq).symm
        simp only [h.follow_of_other hother, Coder.script, hd, ↓reduceIte]
        exact ih _ _ _
    | finish d =>
      by_cases hd : d = direction
      · subst hd
        simp only [SessionView.follow, Coder.script, ↓reduceIte, SessionView.play, h.finish]
        rcases sink.carry true (k.finish s).spans.toList (k.finish s).fault with ⟨t, e | ⟨⟩⟩
        · simp only [h.session_place, h.follow_failed]
          rfl
        · simp only [h.session_place, h.follow_idle]
          rfl
      · have hother : ¬(SessionCall.finish d).Allowed direction.phase :=
          fun heq => hd (Direction.eq_of_phase_eq heq).symm
        simp only [h.follow_of_other hother, Coder.script, hd, ↓reduceIte]
        exact ih _ _ _
    | fail =>
      simp only [SessionView.follow, Coder.script, SessionView.play, h.fail, h.session_place,
        h.follow_failed]
      rfl

end Serves
end PdfStream
