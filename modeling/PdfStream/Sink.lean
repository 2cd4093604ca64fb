import PdfStream.Error

/-!
Output sinks. A sink answers each write with the number of bytes it takes, or refuses; a retrying
sink offers the rest again until all is taken. Delivery stops at the first failure.
-/
namespace PdfStream

/-- How a sink answers, given what it holds, how often it was asked before and what is offered. -/
structure SinkPolicy where
  onWrite : (held calls offered : Nat) → Except Error Nat
  onFlush : (flushes : Nat) → Except Error Unit
  retrying : Bool := false

structure Sink where
  policy : SinkPolicy
  held : Array UInt8 := #[]
  calls : Nat := 0
  flushes : Nat := 0

namespace SinkPolicy

/-- Takes everything. -/
def buffer : SinkPolicy := ⟨fun _ _ offered => .ok offered, fun _ => .ok (), false⟩

end SinkPolicy

namespace Sink

/-- An empty sink that takes everything. -/
def buffer : Sink := { policy := .buffer }

def content (s : Sink) : Bytes := s.held.toList

/-- One offer. At most what is offered can be taken. -/
def write (s : Sink) (span : Bytes) : Sink × Except Error Nat :=
  match s.policy.onWrite s.held.size s.calls span.length with
  | .error e => ({ s with calls := s.calls + 1 }, .error e)
  | .ok n =>
    let taken := min n span.length
    ({ s with held := s.held ++ span.take taken, calls := s.calls + 1 }, .ok taken)

/-- Offers the rest again until nothing is left. -/
def writeAll (s : Sink) (span : Bytes) : Sink × Except Error Unit :=
  if span = [] then (s, .ok ())
  else
    match s.write span with
    | (s, .error e) => (s, .error e)
    | (s, .ok 0) => (s, .error (.io .nothingAccepted))
    | (s, .ok (n + 1)) => writeAll s (span.drop (n + 1))
termination_by span.length
decreasing_by
  have : span.length ≠ 0 := by simpa using ‹¬ span = []›
  simp only [List.length_drop]
  omega

/-- Hands over one span. An empty span never reaches the sink. -/
def put (s : Sink) (span : Bytes) : Sink × Except Error Unit :=
  if span = [] then (s, .ok ())
  else if s.policy.retrying then s.writeAll span
  else
    match s.write span with
    | (s, .error e) => (s, .error e)
    | (s, .ok n) => (s, if n = span.length then .ok () else .error (.shortWrite span.length n))

/-- Hands over the spans in order, up to the first failure. -/
def deliver (s : Sink) : List Bytes → Sink × Except Error Unit
  | [] => (s, .ok ())
  | span :: spans =>
    match s.put span with
    | (s, .ok ()) => s.deliver spans
    | (s, .error e) => (s, .error e)

def flush (s : Sink) : Sink × Except Error Unit :=
  ({ s with flushes := s.flushes + 1 }, s.policy.onFlush s.flushes)

end Sink
end PdfStream
