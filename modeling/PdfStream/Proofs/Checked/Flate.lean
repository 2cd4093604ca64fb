import PdfStream.Flate
import PdfStream.Proofs.Bytes
import PdfStream.Proofs.Checked.Predictor

/-!
The checked steps of the Flate filter. Both directions work through a buffer of 8192 bytes: what is
written is cut into spans of that length, and so are the pieces that were decoded.
-/
namespace PdfStream.Flate
namespace Reader

/-- Reads on with every piece cut from the buffer. -/
def readOn? (r : Reader) (piece : Array UInt8) (data : Bytes) (out : Step (Option Predictor)) :
    Option (Step (Reader × Option Predictor)) :=
  let level := r.level
  let left := r.left data
  let f := r.fill data
  if f.inflate.isBroken then
    some ((out.andThen (.stop · Inflate.corrupt)).map fun p => (ofFill level f [], p))
  else
    let whole := piece ++ f.bytes.extract 0 (windowLength - level)
    if _ : ¬Ends left f whole.size ∧ whole.size < pieceLength then
      readOn? (ofFill level f []) whole f.data out
    else
      Predictor.passAll? pieceLength out (Bytes.chunks pieceLength whole.toList) >>=
        fun (out, waiting) =>
          if _ : ¬Ends left f whole.size ∧ out.fault.isNone then
            readOn? (ofFill level f []) #[] f.data out
          else some (out.map fun p => (ofFill level f waiting, p))
termination_by r.left data
decreasing_by
  all_goals exact left_lt_of_not_ends (And.left ‹_›)

def feed? (r : Reader) (data : Bytes) (p : Option Predictor) :
    Option (Step (Reader × Option Predictor)) :=
  if r.inflate.isBroken then some (.stop (r, p) Inflate.corrupt)
  else
    Predictor.passAll? pieceLength (.quiet p) r.waiting >>= fun (out, waiting) =>
      let isShort := r.waiting.getLast?.any (·.length < pieceLength)
      if out.fault.isSome ∨ (data = [] ∧ isShort) then
        some (out.map fun p => ({ r with waiting }, p))
      else readOn? { r with waiting } #[] data out

/-- Pieces that wait fit the buffer. -/
def IsBounded (r : Reader) : Prop := ∀ piece ∈ r.waiting, piece.length ≤ pieceLength

/-- What a session has on hand. -/
def Holds (s : Reader × Option Predictor) : Prop := s.1.IsBounded ∧ Predictor.AllInBounds s.2

/-- By induction on the bits left: a fill that is not the last leaves fewer. -/
theorem inRange_readOn (r : Reader) (piece : Array UInt8) (data : Bytes)
    (out : Step (Option Predictor)) (hout : out.fault = none → Predictor.AllInBounds out.state) :
    Step.InRange Holds (readOn? r piece data out) (readOn r piece data out) := by
  induction hn : r.left data using Nat.strongRecOn generalizing r piece data out with
  | ind n ih =>
    subst hn
    unfold readOn? readOn
    dsimp only
    split
    next =>
      refine ⟨rfl, fun hfault => ?_⟩
      obtain ⟨e, he⟩ := Step.fault_andThen_stop out Inflate.corrupt
      rw [Step.fault_map, he] at hfault
      cases hfault
    next =>
      generalize piece ++ (r.fill data).bytes.extract 0 (windowLength - r.level) = whole
      split
      next hsmall => exact ih _ (left_lt_of_not_ends hsmall.1) _ _ _ _ hout rfl
      next =>
        obtain ⟨hsame, hkeeps, hleft⟩ := Predictor.passAll?_spec out hout
          (Bytes.chunks pieceLength whole.toList) fun _ => Bytes.length_le_of_mem_chunks
        rw [hsame]
        simp only [Option.bind_eq_bind, Option.bind_some]
        split
        next hgoes => exact ih _ (left_lt_of_not_ends hgoes.1) _ _ _ _ hkeeps rfl
        next => exact ⟨rfl, fun hfault => ⟨hleft, hkeeps hfault⟩⟩

theorem inRange_feed {r : Reader} (h : r.IsBounded) (data : Bytes) {p : Option Predictor}
    (hp : Predictor.AllInBounds p) : Step.InRange Holds (r.feed? data p) (r.feed data p) := by
  obtain ⟨hsame, hkeeps, hleft⟩ := Predictor.passAll?_spec (.quiet p) (fun _ => hp) r.waiting h
  unfold feed? feed
  split
  · exact Step.inRange_stop _ _
  · rw [hsame]
    simp only [Option.bind_eq_bind, Option.bind_some]
    split
    · exact ⟨rfl, fun hfault => ⟨hleft, hkeeps hfault⟩⟩
    · exact inRange_readOn _ _ _ _ hkeeps

end Reader

/-- What is written is cut from the buffer. -/
def encodeBlock? (c : Flate) (data : Bytes) : Option (Step Flate) :=
  if data = [] then some (.quiet c)
  else
    match c.encoder with
    | none => some (c.notStarted .encode)
    | some encoder =>
      ((encoder.feed data).within? Deflate.spanLength).map
        (Step.map fun e => { c with encoder := some e })

def endEncode? (c : Flate) : Option (Step Flate) :=
  match c.encoder with
  | none => some (c.notStarted .encode)
  | some encoder =>
    (encoder.finish.within? Deflate.spanLength).map (Step.map fun _ => { c with encoder := none })

def decodeBlock? (c : Flate) (data : Bytes) : Option (Step Flate) :=
  if c.finished then some (.quiet c)
  else
    match c.reader with
    | none => some (c.notStarted .decode)
    | some reader =>
      (reader.feed? data c.predictor).map (Step.map fun (reader, predictor) =>
        { c with reader := some reader, predictor }) >>= fun r => r.andThen? fun c =>
          some (.quiet { c with finished := c.reader.any (·.inflate.isFinished) })

def endDecode? (c : Flate) : Option (Step Flate) :=
  c.decodeBlock? [] >>= fun r => r.andThen? fun c =>
    let c := { c with reader := none }
    if !c.finished then some (.stop c (.decode .deflateCut))
    else some ((Predictor.close c.predictor).map fun predictor => { c with predictor })

/-- What a decode session has on hand fits the buffer. -/
def InBounds (direction : Direction) (c : Flate) : Prop :=
  match direction with
  | .encode => True
  | .decode => (∀ r, c.reader = some r → r.IsBounded) ∧ Predictor.AllInBounds c.predictor

section
variable {c : Flate}

theorem inBounds_beginDecode (c : Flate) (parms : Option DecodeParms)
    (h : (c.beginDecode parms).fault = none) : (c.beginDecode parms).state.InBounds .decode := by
  revert h
  unfold beginDecode
  cases hpredictor : Predictor.ofParms parms with
  | error e => exact nofun
  | ok predictor =>
    intro _
    constructor
    · rintro _ ⟨⟩
      exact nofun
    · rintro p hp
      exact Predictor.inBounds_ofParms (hpredictor.trans (congrArg _ hp))

theorem inRange_inSpans {σ : Type} {P : σ → Prop} {size : Nat} {r : Step σ}
    (h : r.fault = none → P r.state) :
    Step.InRange P ((r.inSpans size).within? size) (r.inSpans size) := by
  refine Step.inRange_within (r := r.inSpans size) h fun span hspan => ?_
  rw [Step.inSpans, List.toList_toArray] at hspan
  exact Bytes.length_le_of_mem_chunks hspan

theorem inRange_encodeBlock (c : Flate) (data : Bytes) :
    Step.InRange (InBounds .encode) (encodeBlock? c data) (c.encodeBlock data) := by
  unfold encodeBlock? encodeBlock
  split
  · exact Step.inRange_quiet trivial
  · cases c.encoder with
    | none => exact Step.inRange_stop _ _
    | some encoder =>
      exact (inRange_inSpans (P := fun _ => True) fun _ => trivial).map fun _ _ => trivial

theorem inRange_endEncode (c : Flate) :
    Step.InRange (fun _ => True) (endEncode? c) c.endEncode := by
  unfold endEncode? endEncode
  cases c.encoder with
  | none => exact Step.inRange_stop _ _
  | some encoder =>
    exact (inRange_inSpans (P := fun _ => True) fun _ => trivial).map fun _ _ => trivial

theorem inRange_decodeBlock (h : c.InBounds .decode) (data : Bytes) :
    Step.InRange (InBounds .decode) (decodeBlock? c data) (c.decodeBlock data) := by
  obtain ⟨hreader, hpredictor⟩ := h
  unfold decodeBlock? decodeBlock
  split
  · exact Step.inRange_quiet ⟨hreader, hpredictor⟩
  · cases hr : c.reader with
    | none => exact Step.inRange_stop _ _
    | some r =>
      refine Step.InRange.andThen (P := InBounds .decode) ?_ fun s hs => Step.inRange_quiet hs
      refine (Reader.inRange_feed (hreader r hr) data hpredictor).map fun s hs => ⟨?_, hs.2⟩
      rintro _ ⟨⟩
      exact hs.1

theorem inRange_endDecode (h : c.InBounds .decode) :
    Step.InRange (fun _ => True) (endDecode? c) c.endDecode := by
  refine (inRange_decodeBlock h []).andThen fun s _ => ⟨?_, fun _ => trivial⟩
  dsimp only
  split <;> rfl

end
end PdfStream.Flate
