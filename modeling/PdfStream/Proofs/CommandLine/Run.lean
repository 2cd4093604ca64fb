import PdfStream.CommandLine.Run
import PdfStream.Proofs.Chain.RoundTrip
import PdfStream.Proofs.CommandLine.Arguments

/-!
A run on the command line against a chain in a program. Both build their stages from filter names in
decode order, the one from the last name to the first, the other by turning the list around, and
both arrive at the same chain; what the run reads piece by piece the chain can take in one call.
-/
namespace PdfStream

section
variable {α β ε : Type}

theorem bind_eq_ok_iff {r : Except ε α} {f : α → Except ε β} {b : β} :
    (r >>= f) = .ok b ↔ ∃ a, r = .ok a ∧ f a = .ok b := by
  cases r with
  | error e => exact ⟨nofun, nofun⟩
  | ok a =>
    constructor
    · exact fun h => ⟨a, rfl, h⟩
    · rintro ⟨_, ⟨⟩, h⟩
      exact h

theorem toOption_eq_some_iff {r : Except ε α} {a : α} : r.toOption = some a ↔ r = .ok a := by
  cases r with
  | error e => exact ⟨nofun, nofun⟩
  | ok b => exact ⟨fun h => congrArg Except.ok (Option.some.inj h), fun h => h ▸ rfl⟩

/-- Only the first error decides which error a list of results comes to, but every result decides
whether it comes to one. -/
theorem mapM_eq_ok_iff {f : α → Except ε β} {xs : List α} {ys : List β} :
    xs.mapM f = .ok ys ↔ xs.map (fun x => (f x).toOption) = ys.map some := by
  induction xs generalizing ys with
  | nil =>
    rw [List.mapM_nil, List.map_nil, eq_comm (a := []), List.map_eq_nil_iff]
    exact ⟨fun h => (Except.ok.inj h).symm, fun h => h ▸ rfl⟩
  | cons x xs ih =>
    rw [List.mapM_cons, bind_eq_ok_iff, List.map_cons, eq_comm, List.map_eq_cons_iff]
    constructor
    · rintro ⟨y, hy, hrest⟩
      obtain ⟨rest, hxs, ⟨⟩⟩ := bind_eq_ok_iff.1 hrest
      exact ⟨y, rest, rfl, (toOption_eq_some_iff.2 hy).symm, (ih.1 hxs).symm⟩
    · rintro ⟨y, rest, rfl, hy, hrest⟩
      exact ⟨y, toOption_eq_some_iff.1 hy.symm, bind_eq_ok_iff.2 ⟨rest, ih.2 hrest.symm, rfl⟩⟩

end

/-- The default codec of a filter name. -/
def Codec.ofName (name : String) : Except Error Codec := FilterKind.ofName name >>= Codec.ofKind

namespace Chain
variable {direction : Direction} {stages : List Stage} {c : Chain}

def Stage.new (codec : Codec) (parms : Option DecodeParms) : Stage := { engine := { codec }, parms }

/-- The stages are new, with the default codecs of the names. The last name comes first, and it
alone has parameters. -/
def IsBuiltFrom (front : List String) (last : String) (parms : Option DecodeParms) (c : Chain) :
    Prop :=
  ∃ (codec : Codec) (codecs : List Codec),
    (last :: front.reverse).map (fun name => (Codec.ofName name).toOption) =
      (codec :: codecs).map some ∧
    c = { stages := Stage.new codec parms :: codecs.map (Stage.new · none) }

/-- A new stage with the default codec of the name, if it is one of a filter that has it. -/
def Stage.ofFilter? (filter : String × Option DecodeParms) : Option Stage :=
  (Codec.ofName filter.1).toOption.map (Stage.new · filter.2)

theorem ofDecodeOrder_eq_ok_iff {filters : List (String × Option DecodeParms)} :
    ofDecodeOrder filters = .ok c ↔
      ∃ stages : List Stage,
        filters.reverse.map Stage.ofFilter? = stages.map some ∧ c = { stages } := by
  have hstage (filter : String × Option DecodeParms) :
      Except.toOption (do
        let engine ← Engine.ofKind (← FilterKind.ofName filter.1)
        return { engine, parms := filter.2 : Stage }) = Stage.ofFilter? filter := by
    unfold Stage.ofFilter? Codec.ofName
    cases FilterKind.ofName filter.1 with
    | error e => rfl
    | ok kind => cases kind <;> rfl
  unfold ofDecodeOrder
  simp only [bind_eq_ok_iff, mapM_eq_ok_iff, hstage]
  constructor
  · rintro ⟨stages, hstages, ⟨⟩⟩
    refine ⟨stages.reverse, ?_, rfl⟩
    rw [List.map_reverse, hstages, List.map_reverse]
  · rintro ⟨stages, hstages, rfl⟩
    refine ⟨stages.reverse, ?_, by rw [List.reverse_reverse]; rfl⟩
    rw [List.map_reverse, ← hstages, List.map_reverse, List.reverse_reverse]

/-- New stages without parameters, by the codecs they have. -/
theorem map_ofFilter?_iff {names : List String} :
    (names.map (·, none)).map Stage.ofFilter? = stages.map some ↔
      ∃ codecs : List Codec,
        names.map (fun name => (Codec.ofName name).toOption) = codecs.map some ∧
        stages = codecs.map (Stage.new · none) := by
  constructor
  · intro h
    induction names generalizing stages with
    | nil => exact ⟨[], rfl, List.map_eq_nil_iff.1 h.symm⟩
    | cons name names ih =>
      obtain ⟨s, rest, rfl, hs, hrest⟩ := List.map_eq_cons_iff.1 h.symm
      obtain ⟨codec, hcodec, rfl⟩ := Option.map_eq_some_iff.1 hs.symm
      obtain ⟨codecs, hcodecs, rfl⟩ := ih hrest.symm
      refine ⟨codec :: codecs, ?_, rfl⟩
      rw [List.map_cons, List.map_cons, hcodec, hcodecs]
  · rintro ⟨codecs, hcodecs, rfl⟩
    have hmap : (names.map (·, none)).map Stage.ofFilter? =
        (names.map fun name => (Codec.ofName name).toOption).map
          (Option.map (Stage.new · none)) := by
      rw [List.map_map, List.map_map]
      rfl
    rw [hmap, hcodecs, List.map_map, List.map_map]
    rfl

theorem ofDecodeOrder_iff_isBuiltFrom {front : List String} {last : String}
    {parms : Option DecodeParms} :
    ofDecodeOrder (front.map (·, none) ++ [(last, parms)]) = .ok c ↔
      c.IsBuiltFrom front last parms := by
  rw [ofDecodeOrder_eq_ok_iff, List.reverse_append, ← List.map_reverse]
  constructor
  · rintro ⟨stages, hstages, rfl⟩
    obtain ⟨s, rest, rfl, hs, hrest⟩ := List.map_eq_cons_iff.1 hstages.symm
    obtain ⟨codec, hcodec, rfl⟩ := Option.map_eq_some_iff.1 hs.symm
    obtain ⟨codecs, hcodecs, rfl⟩ := map_ofFilter?_iff.1 hrest.symm
    refine ⟨codec, codecs, ?_, rfl⟩
    rw [List.map_cons, List.map_cons, hcodec, hcodecs]
  · rintro ⟨codec, codecs, hnamed, rfl⟩
    obtain ⟨hcodec, hcodecs⟩ := List.cons.inj hnamed
    have hfirst : Stage.ofFilter? (last, parms) = some (Stage.new codec parms) :=
      congrArg (Option.map (Stage.new · parms)) hcodec
    refine ⟨Stage.new codec parms :: codecs.map (Stage.new · none), ?_, rfl⟩
    show Stage.ofFilter? (last, parms) :: (front.reverse.map (·, none)).map Stage.ofFilter? = _
    rw [hfirst, map_ofFilter?_iff.2 ⟨codecs, hcodecs, rfl⟩]
    rfl

theorem IsBuiltFrom.exists_ofKind {front : List String} {last : String} {parms : Option DecodeParms}
    (h : c.IsBuiltFrom front last parms) {s : Stage} (hs : s ∈ c.stages) :
    ∃ kind codec, Codec.ofKind kind = .ok codec ∧
      (s = Stage.new codec parms ∨ s = Stage.new codec none) := by
  obtain ⟨codec, codecs, hnamed, rfl⟩ := h
  have hkind {codec' : Codec} (hmem : codec' ∈ codec :: codecs) :
      ∃ kind, Codec.ofKind kind = .ok codec' := by
    have hsome : some codec' ∈ (codec :: codecs).map some := List.mem_map_of_mem hmem
    rw [← hnamed] at hsome
    obtain ⟨name, -, hname⟩ := List.mem_map.1 hsome
    obtain ⟨kind, -, hkind⟩ := bind_eq_ok_iff.1 (toOption_eq_some_iff.1 hname)
    exact ⟨kind, hkind⟩
  rcases List.mem_cons.1 hs with rfl | hrest
  · obtain ⟨kind, hkind⟩ := hkind List.mem_cons_self
    exact ⟨kind, codec, hkind, .inl rfl⟩
  · obtain ⟨codec', hmem, rfl⟩ := List.mem_map.1 hrest
    obtain ⟨kind, hkind⟩ := hkind (List.mem_cons_of_mem codec hmem)
    exact ⟨kind, codec', hkind, .inr rfl⟩

theorem IsBuiltFrom.atRest {front : List String} {last : String} {parms : Option DecodeParms}
    (h : c.IsBuiltFrom front last parms) : c.AtRest := by
  constructor
  · obtain ⟨codec, codecs, -, rfl⟩ := h
    rfl
  · intro s hs
    obtain ⟨kind, codec, -, rfl | rfl⟩ := h.exists_ofKind hs <;> rfl

theorem IsBuiltFrom.unique {front : List String} {last : String} {parms : Option DecodeParms}
    {c' : Chain} (h : c.IsBuiltFrom front last parms) (h' : c'.IsBuiltFrom front last parms) :
    c' = c := by
  obtain ⟨codec, codecs, hnamed, rfl⟩ := h
  obtain ⟨codec', codecs', hnamed', rfl⟩ := h'
  rw [hnamed'] at hnamed
  obtain ⟨rfl, rfl⟩ :=
    List.cons.inj (List.map_injective_iff.2 (Option.some_injective Codec) hnamed)
  rfl

/-- No stage is a Crypt stage, which has no default codec. -/
theorem IsBuiltFrom.kind_ne {front : List String} {last : String} {parms : Option DecodeParms}
    (h : c.IsBuiltFrom front last parms) {s : Stage} (hs : s ∈ c.stages) :
    s.engine.codec.kind ≠ .crypt := by
  obtain ⟨kind, codec, hkind, hs⟩ := h.exists_ofKind hs
  have hsame : s.engine.codec.kind = kind := by
    rcases hs with rfl | rfl <;> exact Codec.kind_of_ofKind hkind
  rw [hsame]
  rintro rfl
  cases hkind

theorem IsBuiltFrom.isReversible {front : List String} {last : String}
    (h : c.IsBuiltFrom front last none) : c.IsReversible := by
  intro s hs
  obtain ⟨kind, codec, hkind, hs⟩ := h.exists_ofKind hs
  have hs : s = Stage.new codec none := hs.elim id id
  have hdefault : codec.IsReversible none := by
    cases kind with
    | runLength | ascii85 | asciiHex =>
      cases hkind
      trivial
    | lzw =>
      cases hkind
      exact ⟨trivial, rfl⟩
    | flate =>
      cases hkind
      exact trivial
    | crypt => cases hkind
  rw [hs]
  exact hdefault

theorem IsBuiltFrom.isServedBy {front : List String} {last : String} {parms : Option DecodeParms}
    (h : c.IsBuiltFrom front last parms) (ctx : CryptoContext) : c.IsServedBy ctx := by
  intro s hs
  have hkind := h.kind_ne hs
  cases hcodec : s.engine.codec with
  | crypt codec => exact absurd (congrArg Codec.kind hcodec) hkind
  | runLength | lzw | ascii85 | asciiHex | flate => trivial

theorem exists_isBuiltFrom {front : List String} {last : String} (parms : Option DecodeParms)
    (h : ∀ name ∈ front ++ [last], ∃ kind, FilterKind.ofName name = .ok kind ∧ kind ≠ .crypt) :
    ∃ c : Chain, c.IsBuiltFrom front last parms := by
  let codecOf (name : String) : Codec := (Codec.ofName name).toOption.getD (.asciiHex {})
  refine ⟨_, codecOf last, front.reverse.map codecOf, ?_, rfl⟩
  rw [← List.map_cons, List.map_map]
  apply List.map_congr_left
  intro name hname
  obtain ⟨kind, hkind, hne⟩ := h name (by simpa [or_comm] using hname)
  show _ = some (codecOf name)
  simp only [codecOf, Codec.ofName, hkind]
  cases kind with
  | crypt => exact absurd rfl hne
  | runLength | lzw | ascii85 | asciiHex | flate => rfl

/-- Encoding asks for no parameters. -/
theorem IsBuiltFrom.encodes_alike {front : List String} {last : String}
    (h : c.IsBuiltFrom front last none) (parms : Option DecodeParms) :
    ∃ c' : Chain, c'.IsBuiltFrom front last parms ∧ ∀ ctx data,
      through .encode c'.stages ctx data = through .encode c.stages ctx data := by
  obtain ⟨codec, codecs, hnamed, rfl⟩ := h
  exact ⟨_, ⟨codec, codecs, hnamed, rfl⟩, fun _ _ => rfl⟩

/-- Only a Crypt codec looks at the context. -/
theorem oneShot_congr_of_kind_ne {codec : Codec} (h : codec.kind ≠ .crypt) (direction : Direction)
    (ctx ctx' : CryptoContext) (parms : Option DecodeParms) (data : Bytes) :
    codec.oneShot direction ctx parms data = codec.oneShot direction ctx' parms data := by
  apply Codec.oneShot_congr
  cases codec with
  | crypt c => exact absurd rfl h
  | runLength | lzw | ascii85 | asciiHex | flate => cases direction <;> rfl

section
variable (hplain : ∀ s ∈ stages, s.engine.codec.kind ≠ .crypt)
include hplain

theorem through_congr (ctx ctx' : CryptoContext) (data : Bytes) :
    through direction stages ctx data = through direction stages ctx' data := by
  induction stages generalizing ctx ctx' data with
  | nil => rfl
  | cons s stages ih =>
    obtain ⟨hs, hrest⟩ := List.forall_mem_cons.1 hplain
    rw [through, through, oneShot_congr_of_kind_ne hs direction ctx ctx']
    congr 1
    funext out
    exact ih hrest _ _ out

theorem ReadsCalm.of_plain {ctx : CryptoContext} {data : Bytes} (h : ReadsCalm stages ctx data)
    (ctx' : CryptoContext) : ReadsCalm stages ctx' data := by
  induction stages generalizing ctx ctx' data with
  | nil => trivial
  | cons s stages ih =>
    obtain ⟨hs, hrest⟩ := List.forall_mem_cons.1 hplain
    obtain ⟨hown, hlater⟩ := h
    refine ⟨hown, fun out hout => ih hrest (hlater out ?_) _⟩
    rwa [oneShot_congr_of_kind_ne hs .decode ctx ctx']

end

theorem runSession_returned_iff (hc : c.AtRest) (direction : Direction) (ctx : CryptoContext)
    (blocks : List Bytes)
    (hcalm : direction = .decode → ReadsCalm (inOrder direction c.stages) ctx blocks.flatten)
    (out : Bytes) :
    (∃ sink, (c.runSession direction .buffer ctx blocks).2.2 = .returned sink ∧
        sink.content = out) ↔
      through direction (inOrder direction c.stages) ctx blocks.flatten = some out := by
  rcases runSession_spec hc direction ctx blocks hcalm with ⟨⟨c', e, sink, hrun, -⟩, hnone⟩ |
    ⟨ctx', c', sink, hrun, -, -, -, -, hsome⟩
  · rw [hrun, hnone]
    exact ⟨nofun, nofun⟩
  · rw [hrun, hsome, Option.some_inj]
    constructor
    · rintro ⟨_, ⟨⟩, hout⟩
      exact hout
    · exact fun hout => ⟨sink, rfl, hout⟩

end Chain

namespace CommandLine

/-- The run finds the input, can make its output, and does not empty the one by making the other. -/
structure Host.Offers (host : Host) (r : FilterRequest) (input : Bytes) : Prop where
  input : host.input r.input = .ok (.content input)
  output : host.output r.output = .ok ()
  apart : filePath r.output = none ∨ filePath r.input ≠ filePath r.output

namespace FilterRequest
variable {r : FilterRequest}

/-- What a run comes to that succeeds with this output. -/
def success (r : FilterRequest) (out : Bytes) : Outcome :=
  match filePath r.output with
  | none => { stdout := out }
  | some path => { created := some (path, out) }

theorem decodeParms_eq {entries : List (String × ParamValue)}
    (h : r.parms.mapM DecodeParms.parsePair = .ok entries) :
    r.decodeParms = .ok (if r.parms = [] then none else some (.ofList entries)) := by
  unfold decodeParms
  split
  · rfl
  · have hpairs : (r.parms.mapM fun pair =>
        (DecodeParms.parsePair pair).mapError (Failure.badParm pair)) = .ok entries := by
      rw [mapM_eq_ok_iff] at h ⊢
      rw [← h]
      apply List.map_congr_left
      intro pair _
      cases DecodeParms.parsePair pair <;> rfl
    rw [hpairs]
    rfl

/-- A filter other than Crypt has its default codec. -/
theorem toOption_codec {name : String} (h : FilterKind.ofName name ≠ .ok .crypt) :
    (r.codec name).toOption = (Codec.ofName name).toOption := by
  unfold codec Codec.ofName
  cases hname : FilterKind.ofName name with
  | error e => rfl
  | ok kind =>
    cases kind with
    | crypt => exact absurd hname h
    | runLength | lzw | ascii85 | asciiHex | flate => rfl

theorem foldl_push (stages : List Stage) (codecs : List Codec) :
    (codecs.foldl (fun (c, parms) codec => (c.push codec parms, none))
      (({ stages } : Chain), (none : Option DecodeParms))).1 =
        { stages := stages ++ codecs.map (Chain.Stage.new · none) } := by
  induction codecs generalizing stages with
  | nil => simp
  | cons codec codecs ih =>
    rw [List.foldl_cons]
    refine (ih (stages ++ [Chain.Stage.new codec none])).trans ?_
    rw [List.append_assoc]
    rfl

/-- The names from the last to the first, with the parameters going to the last name, are the names
in order and the chain turned around. -/
theorem chain_eq_ok_iff {front : List String} {last : String}
    (hfilters : r.filters = front ++ [last])
    (hplain : ∀ name ∈ r.filters, FilterKind.ofName name ≠ .ok .crypt)
    {parms : Option DecodeParms} (hparms : r.decodeParms = .ok parms) {c : Chain} :
    r.chain = .ok c ↔ c.IsBuiltFrom front last parms := by
  have hnames : r.filters.reverse = last :: front.reverse := by
    rw [hfilters, List.reverse_append]
    rfl
  have hcodecs : r.filters.reverse.map (fun name => (r.codec name).toOption) =
      (last :: front.reverse).map fun name => (Codec.ofName name).toOption := by
    rw [← hnames]
    exact List.map_congr_left fun name h => toOption_codec (hplain name (List.mem_reverse.1 h))
  have hbuild (codec : Codec) (codecs : List Codec) :
      ((codec :: codecs).foldl (fun (c, parms) codec => (c.push codec parms, none))
        (({} : Chain), parms)).1 =
          { stages := Chain.Stage.new codec parms :: codecs.map (Chain.Stage.new · none) } :=
    foldl_push [Chain.Stage.new codec parms] codecs
  unfold chain
  rw [hparms]
  show (r.filters.reverse.mapM r.codec >>= _) = _ ↔ _
  simp only [bind_eq_ok_iff, mapM_eq_ok_iff, hcodecs]
  constructor
  · rintro ⟨all, hall, ⟨⟩⟩
    obtain ⟨codec, codecs, rfl, -, -⟩ := List.map_eq_cons_iff.1 hall.symm
    exact ⟨codec, codecs, hall, hbuild codec codecs⟩
  · rintro ⟨codec, codecs, hall, rfl⟩
    exact ⟨codec :: codecs, hall, congrArg Except.ok (hbuild codec codecs)⟩

theorem feed_eq (direction : Direction) (c : Chain) (blocks : List Bytes) :
    feed direction c blocks =
      match c.feed direction blocks with
      | (c, .done) => (c.finish direction).2
      | (_, reply) => reply := by
  induction blocks generalizing c with
  | nil => rfl
  | cons block blocks ih =>
    rw [feed, Chain.feed]
    rcases c.block direction block with ⟨c', reply⟩
    cases reply with
    | done => exact ih c'
    | returned | refused | broken => rfl

theorem pass_eq (direction : Direction) (c : Chain) (input : Bytes) (ctx : CryptoContext) :
    pass direction c (.content input) ctx =
      settle (c.runSession direction .buffer ctx (Bytes.chunks blockSize input)).2.2 := by
  unfold pass Chain.runSession
  rcases c.start direction .buffer ctx with ⟨ctx', c', reply⟩
  cases reply with
  | done =>
    dsimp only
    rw [feed_eq]
    rcases c'.feed direction (Bytes.chunks blockSize input) with ⟨c'', reply⟩
    cases reply <;> rfl
  | returned | refused | broken => rfl

/-- What is read piece by piece comes to the same as all of it in one call. -/
theorem pass_eq_iff {c : Chain} (hc : c.AtRest) (direction : Direction) (input : Bytes)
    (ctx : CryptoContext)
    (hcalm : direction = .decode →
      Chain.ReadsCalm (Chain.inOrder direction c.stages) ctx input)
    (out : Bytes) :
    pass direction c (.content input) ctx = (out, none) ↔
      Chain.through direction (Chain.inOrder direction c.stages) ctx input = some out := by
  have hread : (Bytes.chunks blockSize input).flatten = input :=
    Bytes.flatten_chunks (by decide) input
  rw [← hread] at hcalm
  rw [pass_eq]
  rcases Chain.runSession_spec hc direction ctx (Bytes.chunks blockSize input) hcalm with
    ⟨⟨c', e, sink, hrun, -⟩, hnone⟩ | ⟨ctx', c', sink, hrun, -, -, -, -, hsome⟩
  · rw [hread] at hnone
    rw [hrun, hnone]
    constructor
    · intro h
      cases (Prod.mk.inj h).2
    · exact nofun
  · rw [hread] at hsome
    rw [hrun, hsome, Option.some_inj]
    exact ⟨fun h => (Prod.mk.inj h).1, fun h => congrArg (·, none) h⟩

/-- What the run of a chain comes to, by what it wrote and why it failed. -/
def outcome (r : FilterRequest) (passed : Bytes × Option Failure) : Outcome :=
  let outcome : Outcome := (passed.2.map .failed).getD {}
  match filePath r.output with
  | none => { outcome with stdout := passed.1 }
  | some path => { outcome with created := some (path, passed.1) }

theorem outcome_eq_success_iff {passed : Bytes × Option Failure} {out : Bytes} :
    r.outcome passed = r.success out ↔ passed = (out, none) := by
  obtain ⟨written, failure⟩ := passed
  unfold outcome success
  cases failure <;> cases filePath r.output <;> simp [Outcome.failed]

theorem run_of_error {f : Failure} (h : r.chain = .error f) (host : Host) :
    r.run host = .failed f := by
  unfold run
  rw [h]
  rfl

theorem run_of_chain {c : Chain} (h : r.chain = .ok c) {host : Host} {input : Bytes}
    (hoffers : host.Offers r input) :
    r.run host = r.outcome (pass r.direction c (.content input) { entropy := host.entropy }) := by
  have hsame : ((filePath r.output).isSome && decide (filePath r.input = filePath r.output)) =
      false := by
    rcases hoffers.apart with hnone | hne
    · rw [hnone]
      rfl
    · rw [decide_eq_false hne, Bool.and_false]
  unfold run
  rw [h, hoffers.input, hoffers.output]
  simp only [bind, Except.bind, pure, Except.pure, hsame]
  rfl

/-- A run succeeds if its chain does. -/
theorem run_eq_success_iff {host : Host} {input : Bytes} (h : host.Offers r input) (out : Bytes) :
    r.run host = r.success out ↔
      ∃ c, r.chain = .ok c ∧
        pass r.direction c (.content input) { entropy := host.entropy } = (out, none) := by
  cases hchain : r.chain with
  | error f =>
    have hcode : Outcome.failed f ≠ r.success out := by
      unfold success
      cases filePath r.output <;> simp [Outcome.failed]
    rw [run_of_error hchain]
    exact ⟨fun hrun => absurd hrun hcode, nofun⟩
  | ok c =>
    rw [run_of_chain hchain h, outcome_eq_success_iff]
    constructor
    · exact fun hpass => ⟨c, rfl, hpass⟩
    · rintro ⟨_, ⟨⟩, hpass⟩
      exact hpass

end FilterRequest

/-- The arguments name these filters with these parameters, and the run finds the input. -/
structure IsRun (direction : Direction) (names pairs arguments : List String) (host : Host)
    (r : FilterRequest) (input : Bytes) : Prop where
  read : Request.ofArguments arguments = .filter r
  direction : r.direction = direction
  filters : r.filters = names
  parms : r.parms = pairs
  offers : host.Offers r input

/-- Any filters can be named with any parameters, and any input be given. -/
theorem exists_isRun (direction : Direction) {names : List String} (hnames : names ≠ [])
    (pairs : List String) (input : Bytes) :
    ∃ arguments host r, IsRun direction names pairs arguments host r input := by
  obtain ⟨r, hr⟩ : ∃ r : FilterRequest, r = { direction, filters := names, parms := pairs } :=
    ⟨_, rfl⟩
  obtain ⟨host, hhost⟩ : ∃ host : Host,
      host = { stdin := input, file := fun _ => .ok (.content []), create := fun _ => .ok () } :=
    ⟨_, rfl⟩
  refine ⟨r.arguments, host, r, ?_, ?_, ?_, ?_, ?_⟩
  · apply Request.ofArguments_arguments
    rw [hr]
    exact ⟨hnames, nofun, nofun⟩
  · rw [hr]
  · rw [hr]
  · rw [hr]
  · rw [hr, hhost]
    exact ⟨rfl, rfl, .inl rfl⟩

theorem IsRun.run_eq_success_iff {direction : Direction} {front : List String} {last : String}
    (hplain : ∀ name ∈ front ++ [last], FilterKind.ofName name ≠ .ok .crypt)
    {pairs arguments : List String} {entries : List (String × ParamValue)}
    (hpairs : pairs.mapM DecodeParms.parsePair = .ok entries) {host : Host} {r : FilterRequest}
    {input : Bytes} (h : IsRun direction (front ++ [last]) pairs arguments host r input)
    (ctx : CryptoContext)
    (hcalm : direction = .decode → ∀ c : Chain,
      c.IsBuiltFrom front last (if pairs = [] then none else some (.ofList entries)) →
        Chain.ReadsCalm (Chain.inOrder direction c.stages) ctx input)
    (out : Bytes) :
    (Request.ofArguments arguments).run host = r.success out ↔
      ∃ c : Chain,
        c.IsBuiltFrom front last (if pairs = [] then none else some (.ofList entries)) ∧
        Chain.through direction (Chain.inOrder direction c.stages) ctx input = some out := by
  obtain ⟨hread, hdirection, hfilters, rfl, hoffers⟩ := h
  rw [← hfilters] at hplain
  rw [hread, Request.run, FilterRequest.run_eq_success_iff hoffers, hdirection]
  simp only [FilterRequest.chain_eq_ok_iff hfilters hplain (FilterRequest.decodeParms_eq hpairs)]
  refine exists_congr fun c => and_congr_right fun hbuilt => ?_
  have hstages : ∀ s ∈ Chain.inOrder direction c.stages, s.engine.codec.kind ≠ .crypt :=
    fun s hs => hbuilt.kind_ne (Chain.mem_inOrder.1 hs)
  have hreads (hdecode : direction = .decode) : Chain.ReadsCalm (Chain.inOrder direction c.stages)
      { entropy := host.entropy } input := (hcalm hdecode c hbuilt).of_plain hstages _
  rw [FilterRequest.pass_eq_iff hbuilt.atRest _ _ _ hreads, Chain.through_congr hstages]

/-- A run that decodes calm data comes to what the chain of the names and parameters decodes in one
call, and what a run has encoded a second one decodes without parameters, if what the LZW filters
wrote is calm. -/
theorem run_agrees_with_chain (front : List String) (last : String)
    (hplain : ∀ name ∈ front ++ [last], FilterKind.ofName name ≠ .ok .crypt) :
    (∀ direction pairs input, ∃ arguments host r,
      IsRun direction (front ++ [last]) pairs arguments host r input) ∧
    (∀ {pairs arguments entries host r input},
      pairs.mapM DecodeParms.parsePair = .ok entries →
      IsRun .decode (front ++ [last]) pairs arguments host r input →
      ∀ ctx,
        (∀ c, Chain.ofDecodeOrder (front.map (·, none) ++
            [(last, if pairs = [] then none else some (.ofList entries))]) = .ok c →
          Chain.ReadsCalm (Chain.inOrder .decode c.stages) ctx input) →
        ∀ out, (Request.ofArguments arguments).run host = r.success out ↔
          ∃ c sink, Chain.ofDecodeOrder (front.map (·, none) ++
              [(last, if pairs = [] then none else some (.ofList entries))]) = .ok c ∧
            (c.decodeTo .buffer input ctx).2.2 = .returned sink ∧ sink.content = out) ∧
    ((∀ name ∈ front ++ [last], ∃ kind, FilterKind.ofName name = .ok kind) →
      ∀ {pairs arguments entries host r input},
      pairs.mapM DecodeParms.parsePair = .ok entries →
      IsRun .encode (front ++ [last]) pairs arguments host r input →
      ∃ out, (Request.ofArguments arguments).run host = r.success out ∧
        ((∀ c, Chain.ofDecodeOrder (front.map (·, none) ++ [(last, none)]) = .ok c →
            Chain.WritesCalm c.stages {} input) →
          ∀ {arguments' host' r'}, IsRun .decode (front ++ [last]) [] arguments' host' r' out →
            (Request.ofArguments arguments').run host' = r'.success input)) := by
  refine ⟨?_, ?_, ?_⟩
  · exact fun direction pairs input => exists_isRun direction (by simp) pairs input
  · intro pairs arguments entries host r input hpairs hrun ctx hcalm out
    simp only [Chain.ofDecodeOrder_iff_isBuiltFrom] at hcalm
    rw [hrun.run_eq_success_iff hplain hpairs ctx (fun _ => hcalm) out]
    refine exists_congr fun c => ?_
    rw [exists_and_left, Chain.ofDecodeOrder_iff_isBuiltFrom]
    refine and_congr_right fun hbuilt => ?_
    have hreads := hcalm c hbuilt
    rw [← List.flatten_singleton (l := input)] at hreads
    rw [Chain.decodeTo, Chain.oneShot_eq_runSession,
      Chain.runSession_returned_iff hbuilt.atRest _ _ _ (fun _ => hreads),
      List.flatten_singleton]
  · intro hnames pairs arguments entries host r input hpairs hrun
    obtain ⟨c, hbuilt⟩ := Chain.exists_isBuiltFrom none fun name hname => by
      obtain ⟨kind, hkind⟩ := hnames name hname
      exact ⟨kind, hkind, fun hcrypt => hplain name hname (hcrypt ▸ hkind)⟩
    have hserved : ∀ s ∈ c.stages, s.engine.codec.IsServedBy {} := hbuilt.isServedBy {}
    obtain ⟨out, hencoded, hback⟩ :=
      Chain.compose_through hbuilt.isReversible hserved hserved input
    obtain ⟨c', hbuilt', halike⟩ :=
      hbuilt.encodes_alike (if pairs = [] then none else some (.ofList entries))
    refine ⟨out, (hrun.run_eq_success_iff hplain hpairs {} nofun out).2
      ⟨c', hbuilt', (halike {} input).trans hencoded⟩, ?_⟩
    intro hcalm arguments' host' r' hrun'
    obtain ⟨hdata, hreads⟩ :=
      hback (hcalm c (Chain.ofDecodeOrder_iff_isBuiltFrom.2 hbuilt)) c.stages rfl
    refine (hrun'.run_eq_success_iff hplain rfl {} ?_ input).2 ⟨c, hbuilt, ?_⟩
    · intro _ c'' hbuilt''
      rw [hbuilt.unique hbuilt'']
      exact hreads
    · rw [Chain.through_eq_compose (fun h => Direction.noConfusion h) (.refl {}), Chain.inOrder,
        hdata]
      rfl

theorem run_agrees_with_chain_hex :
    (∀ name ∈ ["AHx"] ++ ["/LZWDecode"], FilterKind.ofName name ≠ .ok .crypt) ∧
    ["Columns=3"].mapM DecodeParms.parsePair = .ok [("Columns", .int 3)] ∧
    ∀ host : Host, host.stdin = [0x38, 0x30, 0x31, 0x30, 0x34, 0x38, 0x35, 0x30, 0x31, 0x30, 0x3E] →
      (Request.ofArguments ["decode", "-f", "AHx", "--filter=/LZWDecode", "-pColumns=3"]).run
        host = { stdout := [0x41, 0x42] } := by
  have hplain : ∀ name ∈ ["AHx"] ++ ["/LZWDecode"],
      FilterKind.ofName name ≠ .ok .crypt := by decide
  have hpairs : ["Columns=3"].mapM DecodeParms.parsePair = .ok [("Columns", .int 3)] := rfl
  refine ⟨hplain, hpairs, ?_⟩
  intro host hstdin
  obtain ⟨r, hr⟩ : ∃ r : FilterRequest, r =
      { direction := .decode
        filters := ["AHx"] ++ ["/LZWDecode"]
        parms := ["Columns=3"] } := ⟨_, rfl⟩
  have hrun : IsRun .decode (["AHx"] ++ ["/LZWDecode"]) ["Columns=3"]
      ["decode", "-f", "AHx", "--filter=/LZWDecode", "-pColumns=3"] host r
      [0x38, 0x30, 0x31, 0x30, 0x34, 0x38, 0x35, 0x30, 0x31, 0x30, 0x3E] := by
    subst hr
    exact ⟨by decide, rfl, rfl, rfl, ⟨congrArg (Except.ok ∘ Source.content) hstdin, rfl, .inl rfl⟩⟩
  obtain ⟨-, hdecode, -⟩ := run_agrees_with_chain ["AHx"] "/LZWDecode" hplain
  obtain ⟨c, hc⟩ : ∃ c : Chain, c = { stages :=
    [Chain.Stage.new (.lzw {}) (some (.ofList [("Columns", .int 3)])),
      Chain.Stage.new (.asciiHex {}) none] } := ⟨_, rfl⟩
  have hbuilt : Chain.ofDecodeOrder (["AHx"].map (·, none) ++
      [("/LZWDecode", some (.ofList [("Columns", .int 3)]))]) = .ok c := hc ▸ rfl
  have hreads : ∀ c', Chain.ofDecodeOrder (["AHx"].map (·, none) ++
      [("/LZWDecode", some (.ofList [("Columns", .int 3)]))]) = .ok c' →
        Chain.ReadsCalm (Chain.inOrder .decode c'.stages) {}
          [0x38, 0x30, 0x31, 0x30, 0x34, 0x38, 0x35, 0x30, 0x31, 0x30, 0x3E] := by
    intro c' hc'
    rw [hbuilt, hc] at hc'
    cases hc'
    decide +kernel
  have hword : (c.decodeTo .buffer
      [0x38, 0x30, 0x31, 0x30, 0x34, 0x38, 0x35, 0x30, 0x31, 0x30, 0x3E] {}).2.2.output =
        .ok [0x41, 0x42] := by
    rw [hc]
    decide +kernel
  have hsuccess : r.success [0x41, 0x42] = { stdout := [0x41, 0x42] } := by
    rw [hr]
    rfl
  rw [← hsuccess, hdecode hpairs hrun {} hreads]
  obtain ⟨sink, hreturned, hcontent⟩ := Reply.exists_returned hword (List.cons_ne_nil _ _)
  exact ⟨c, sink, hbuilt, hreturned, hcontent⟩

end CommandLine
end PdfStream
