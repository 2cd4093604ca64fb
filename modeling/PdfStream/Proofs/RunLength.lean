import PdfStream.Proofs.Coder

/-!
RunLength sessions. Encoding keeps the data that it has not written as an open literal and an open
run; decoding may cut a literal where a block ends, which the output does not show. Reading what was
written gives back the data.
-/
namespace PdfStream.RunLength

/-- The reader without portions: every byte of a literal goes out at once. -/
def readOne (e : Expect) (b : UInt8) : Step Expect :=
  match e with
  | .done => .quiet .done
  | .header => .quiet (.ofHeader b)
  | .literal remaining => .write (if remaining ≤ 1 then .header else .literal (remaining - 1)) [b]
  | .copies count => .write .header (List.replicate count b)

/-- The end of the data is in place after a whole record or the mark. -/
def closeExpect (e : Expect) : Step Expect :=
  match e with
  | .header | .done => .quiet e
  | .literal remaining => .stop e (.decode (.literalCut remaining))
  | .copies _ => .stop e (.decode .repeatCut)

def encoding : Coder RunLength := ⟨fun data c => c.encodeBlock data, endEncode⟩

def decoding : Coder RunLength := ⟨fun data c => c.decodeBlock data, endDecode⟩

/-- What encoding makes of the data, from an encoder at rest. -/
def encoded (c : RunLength) (data : Bytes) : Option Bytes :=
  ((Step.run addByte c data).andThen endEncode).output?

/-- What reading makes of the data. -/
def decoded (e : Expect) (data : Bytes) : Option Bytes :=
  ((Step.run readOne e data).andThen closeExpect).output?

theorem encoding_computes (c : RunLength) : encoding.Computes c (encoded c) :=
  Coder.computes_run encoding addByte endEncode id
    (fun s data => .refl (Step.run addByte s data)) (fun _ => rfl) c

theorem readOne_fault (e : Expect) (b : UInt8) : (readOne e b).fault = none := by
  cases e <;> rfl

theorem run_readOne_fault (e : Expect) (data : Bytes) :
    (Step.run readOne e data).fault = none := by
  induction data generalizing e with
  | nil => rfl
  | cons b data ih =>
    rw [Step.run_cons, Step.fault_andThen (readOne_fault e b)]
    exact ih _

/-- Only a literal has a portion that waits for the end of the block. -/
def Reader.IsTidy (r : Reader) : Prop := r.portion = #[] ∨ ∃ n, r.expect = .literal n

/-- What has left the reader, followed by the portion, is what the bytes bring. -/
theorem readByte_eq {r : Reader} (h : r.IsTidy) (b : UInt8) :
    (readByte r b).fault = none ∧ (readByte r b).state.IsTidy ∧
      (readByte r b).state.expect = (readOne r.expect b).state ∧
      (readByte r b).bytes ++ (readByte r b).state.portion.toList =
        r.portion.toList ++ (readOne r.expect b).bytes := by
  obtain ⟨e, portion⟩ := r
  cases e with
  | literal remaining =>
    simp only [readByte, readOne]
    split
    · exact ⟨rfl, .inl rfl, rfl, by simp⟩
    · exact ⟨rfl, .inr ⟨_, rfl⟩, rfl, by simp⟩
  | header | done | copies n =>
    have hp : portion = #[] := h.resolve_right (by rintro ⟨n, hn⟩; cases hn)
    subst hp
    exact ⟨rfl, .inl rfl, rfl, by simp [readByte, readOne]⟩

theorem run_readByte_eq {r : Reader} (h : r.IsTidy) (data : Bytes) :
    (Step.run readByte r data).fault = none ∧
      (Step.run readByte r data).state.expect = (Step.run readOne r.expect data).state ∧
      (Step.run readByte r data).bytes ++ (Step.run readByte r data).state.portion.toList =
        r.portion.toList ++ (Step.run readOne r.expect data).bytes := by
  induction data generalizing r with
  | nil => exact ⟨rfl, rfl, by simp⟩
  | cons b data ih =>
    obtain ⟨hf, ht, he, hb⟩ := readByte_eq h b
    obtain ⟨hf', he', hb'⟩ := ih ht
    have hone := readOne_fault r.expect b
    rw [Step.run_cons, Step.run_cons, Step.fault_andThen hf, Step.state_andThen hf,
      Step.state_andThen hone, Step.bytes_andThen hf, Step.bytes_andThen hone]
    refine ⟨hf', he'.trans (by rw [he]), ?_⟩
    rw [List.append_assoc, hb', ← List.append_assoc, hb, List.append_assoc, he]

/-- The portions do not show in what a block brings. -/
theorem decodeBlock_eq (c : RunLength) (data : Bytes) :
    ((c.decodeBlock data).map expect).Yields (Step.run readOne c.expect data).state
      (Step.run readOne c.expect data).bytes := by
  have htidy : (⟨c.expect, #[]⟩ : Reader).IsTidy := .inl rfl
  obtain ⟨hf, he, hb⟩ := run_readByte_eq htidy data
  have hread := (Step.yields_of_no_fault hf).andThen
    (f := fun r => .write ⟨r.expect, #[]⟩ r.portion.toList) (Step.yields_write _ _)
  rw [hb, he, List.nil_append] at hread
  exact (hread.map fun r => { c with expect := r.expect }).map expect

theorem decoding_computes (c : RunLength) : decoding.Computes c (decoded c.expect) := by
  refine Coder.computes_run decoding readOne closeExpect expect (fun s data => ?_) (fun s => ?_) c
  · have hblock := decodeBlock_eq s data
    have hrun := Step.yields_of_no_fault (run_readOne_fault s.expect data)
    exact ⟨hblock.output?.trans hrun.output?.symm, fun _ => hblock.2.1⟩
  · obtain ⟨literal, run, e⟩ := s
    cases e <;> rfl

/-- Data that the encoder has taken in and not written. -/
def pending (c : RunLength) : Bytes :=
  c.literal ++ (c.run.map fun run => List.replicate run.count run.byte).getD []

/-- No record outgrows its header. -/
def Bounded (c : RunLength) : Prop :=
  c.literal.length ≤ maxRun ∧ ∀ run, c.run = some run → 1 ≤ run.count ∧ run.count ≤ maxRun

/-- Whatever is left of an earlier session, an encoder that begins has nothing to write. -/
theorem bounded_begun (c : RunLength) : Bounded { c with literal := [], run := none } := by
  constructor
  · exact Nat.zero_le maxRun
  · intro run hrun
    cases hrun

/-- From one record to the next, `bytes` are read as `data`. -/
def ReadsAs (bytes data : Bytes) : Prop := (Step.run readOne .header bytes).Yields .header data

theorem readsAs_nil : ReadsAs [] [] := Step.yields_quiet _

theorem ReadsAs.append {bytes bytes' data data' : Bytes} (h : ReadsAs bytes data)
    (h' : ReadsAs bytes' data') : ReadsAs (bytes ++ bytes') (data ++ data') := h.run_append h'

theorem run_readOne_literal (data : Bytes) (hdata : data ≠ []) :
    (Step.run readOne (.literal data.length) data).Yields .header data := by
  induction data with
  | nil => exact absurd rfl hdata
  | cons b data ih =>
    rw [Step.run_cons]
    by_cases hrest : data = []
    · subst hrest
      have hlast := (Step.yields_write Expect.header [b]).andThen (f := (Step.run readOne · []))
        (Step.yields_quiet _)
      rwa [List.append_nil] at hlast
    · have hlong : ¬data.length + 1 ≤ 1 := by
        have := List.length_pos_iff.2 hrest
        omega
      have hone : (readOne (.literal (b :: data).length) b).Yields (.literal data.length) [b] := by
        rw [readOne, List.length_cons, if_neg hlong]
        exact Step.yields_write _ _
      exact hone.andThen (ih hrest)

theorem readsAs_literal {data : Bytes} (hdata : data ≠ []) (hlength : data.length ≤ maxRun) :
    ReadsAs (UInt8.ofNat (data.length - 1) :: data) data := by
  have hpos := List.length_pos_iff.2 hdata
  have hmax : maxRun = 128 := rfl
  have hheader : Expect.ofHeader (UInt8.ofNat (data.length - 1)) = .literal data.length := by
    have hnat : (UInt8.ofNat (data.length - 1)).toNat = data.length - 1 := by
      rw [UInt8.toNat_ofNat']
      omega
    have hlt : UInt8.ofNat (data.length - 1) < eod := by
      rw [UInt8.lt_iff_toNat_lt, hnat]
      exact (by omega : data.length - 1 < 128)
    rw [Expect.ofHeader, if_pos hlt, hnat, Nat.sub_add_cancel hpos]
  have hfirst : (readOne .header (UInt8.ofNat (data.length - 1))).Yields (.literal data.length)
      [] := by
    rw [readOne, hheader]
    exact Step.yields_quiet _
  have hread := hfirst.andThen (f := (Step.run readOne · data)) (run_readOne_literal data hdata)
  rwa [← Step.run_cons] at hread

theorem readsAs_repeat (b : UInt8) {count : Nat} (htwo : 2 ≤ count) (hcount : count ≤ maxRun) :
    ReadsAs [UInt8.ofNat (257 - count), b] (List.replicate count b) := by
  have hmax : maxRun = 128 := rfl
  have hnat : (UInt8.ofNat (257 - count)).toNat = 257 - count := by
    rw [UInt8.toNat_ofNat']
    omega
  have hlt : ¬UInt8.ofNat (257 - count) < eod := by
    rw [UInt8.lt_iff_toNat_lt, hnat]
    exact (by omega : ¬257 - count < 128)
  have hne : UInt8.ofNat (257 - count) ≠ eod := by
    intro heq
    have h128 : 257 - count = 128 := by rw [← hnat, heq]; rfl
    omega
  have hheader : Expect.ofHeader (UInt8.ofNat (257 - count)) = .copies count := by
    rw [Expect.ofHeader, if_neg hlt, if_neg hne, hnat]
    congr 1
    omega
  have hfirst : (readOne .header (UInt8.ofNat (257 - count))).Yields (.copies count) [] := by
    rw [readOne, hheader]
    exact Step.yields_quiet _
  have hone : (readOne (.copies count) b).Yields .header (List.replicate count b) :=
    Step.yields_write _ _
  have hread := hfirst.andThen (f := (Step.run readOne · [b])) hone.run_singleton
  rwa [← Step.run_cons] at hread

theorem pending_eq_literal {c : RunLength} (hrun : c.run = none) : pending c = c.literal := by
  rw [pending, hrun]
  exact List.append_nil _

theorem pending_eq_append {c : RunLength} {run : Run} (hrun : c.run = some run) :
    pending c = c.literal ++ List.replicate run.count run.byte := by
  rw [pending, hrun]
  rfl

/-- A step that writes records for the front of the data taken in, and keeps the rest. -/
structure Records (c : RunLength) (taken : Bytes) (r : Step RunLength) : Prop where
  no_fault : r.fault = none
  bounded : Bounded r.state
  reads : ∃ data, ReadsAs r.bytes data ∧ pending c ++ taken = data ++ pending r.state

theorem Records.andThen {c : RunLength} {taken taken' : Bytes} {r : Step RunLength}
    {f : RunLength → Step RunLength} (h : Records c taken r)
    (h' : Records r.state taken' (f r.state)) : Records c (taken ++ taken') (r.andThen f) := by
  obtain ⟨data, hreads, hpending⟩ := h.reads
  obtain ⟨data', hreads', hpending'⟩ := h'.reads
  refine ⟨(Step.fault_andThen h.no_fault f).trans h'.no_fault, ?_, data ++ data', ?_, ?_⟩
  · rw [Step.state_andThen h.no_fault]
    exact h'.bounded
  · rw [Step.bytes_andThen h.no_fault]
    exact hreads.append hreads'
  · rw [Step.state_andThen h.no_fault, ← List.append_assoc, hpending, List.append_assoc, hpending',
      List.append_assoc]

theorem records_flushLiteral {c : RunLength} (hc : Bounded c) :
    Records c [] (flushLiteral c) ∧ (flushLiteral c).state = { c with literal := [] } := by
  have hbounded : Bounded { c with literal := [] } := ⟨Nat.zero_le _, hc.2⟩
  unfold flushLiteral
  split
  next hnil =>
    refine ⟨⟨rfl, hc, [], readsAs_nil, List.append_nil _⟩, ?_⟩
    rw [← hnil]
    rfl
  next hne =>
    refine ⟨⟨rfl, hbounded, c.literal, ?_, ?_⟩, rfl⟩
    · have hread := readsAs_literal hne hc.1
      simpa [Step.bytes] using hread
    · simp [pending]

/-- Room for one more byte in the literal. -/
theorem records_makeRoom {c : RunLength} (hc : Bounded c) {r : Step RunLength}
    (hr : r = if c.literal.length = maxRun then flushLiteral c else .quiet c) :
    Records c [] r ∧ r.state.run = c.run ∧ r.state.literal.length < maxRun := by
  split at hr
  next hfull =>
    obtain ⟨hflush, hstate⟩ := records_flushLiteral hc
    rw [hr]
    refine ⟨hflush, ?_, ?_⟩
    · rw [hstate]
    · rw [hstate]
      exact Nat.zero_lt_succ _
  next hfull =>
    rw [hr]
    exact ⟨⟨rfl, hc, [], readsAs_nil, List.append_nil _⟩, rfl, Nat.lt_of_le_of_ne hc.1 hfull⟩

/-- A single byte joins the literal. -/
theorem records_join {c : RunLength} {run : Run} (hrun : c.run = some run)
    (hone : run.count = 1) (hlength : c.literal.length < maxRun) :
    Records c [] (.quiet { c with literal := c.literal ++ [run.byte], run := none }) := by
  refine ⟨rfl, ⟨?_, nofun⟩, [], readsAs_nil, ?_⟩
  · exact Nat.le_trans (Nat.le_of_eq List.length_append) hlength
  · rw [pending_eq_append hrun, hone]
    simp [pending]

/-- Equal bytes become a repeat record. -/
theorem records_repeat {c : RunLength} (hc : Bounded c) {run : Run} (hrun : c.run = some run)
    (hone : run.count ≠ 1) (hnil : c.literal = []) :
    Records c [] (.write { c with run := none } [UInt8.ofNat (257 - run.count), run.byte]) := by
  have hcount := hc.2 run hrun
  refine ⟨rfl, ⟨hc.1, nofun⟩, List.replicate run.count run.byte, ?_, ?_⟩
  · rw [Step.bytes_write]
    exact readsAs_repeat run.byte (by omega) hcount.2
  · rw [pending_eq_append hrun, hnil]
    simp [pending]

theorem records_closeRun {c : RunLength} (hc : Bounded c) :
    Records c [] (closeRun c) ∧ (closeRun c).state.run = none := by
  unfold closeRun
  split
  next hnone => exact ⟨⟨rfl, hc, [], readsAs_nil, List.append_nil _⟩, hnone⟩
  next run hrun =>
    split
    next hone =>
      obtain ⟨r, hr⟩ : ∃ r, r = if c.literal.length = maxRun then flushLiteral c else .quiet c :=
        ⟨_, rfl⟩
      obtain ⟨hrecords, hsame, hlength⟩ := records_makeRoom hc hr
      have hjoin := records_join (hsame.trans hrun) hone hlength
      have hboth := hrecords.andThen (f := fun c => .quiet { c with
          literal := c.literal ++ [run.byte], run := none }) hjoin
      rw [← hr]
      refine ⟨hboth, ?_⟩
      rw [Step.state_andThen hrecords.no_fault]
      rfl
    next hone =>
      obtain ⟨hflush, hstate⟩ := records_flushLiteral hc
      have hrun' : (flushLiteral c).state.run = some run := by rw [hstate, hrun]
      have hnil : (flushLiteral c).state.literal = [] := by rw [hstate]
      have hrepeat := records_repeat hflush.bounded hrun' hone hnil
      have hboth := hflush.andThen (f := fun c => .write { c with run := none }
          [UInt8.ofNat (257 - run.count), run.byte]) hrepeat
      refine ⟨hboth, ?_⟩
      rw [Step.state_andThen hflush.no_fault]
      rfl

theorem records_addByte {c : RunLength} (hc : Bounded c) (b : UInt8) :
    Records c [b] (addByte c b) := by
  have hopen (d : RunLength) (hd : Bounded d) (hnone : d.run = none) :
      Records d [b] (.quiet { d with run := some ⟨b, 1⟩ }) := by
    refine ⟨rfl, ⟨hd.1, ?_⟩, [], readsAs_nil, ?_⟩
    · rintro run ⟨⟩
      exact ⟨Nat.le_refl 1, Nat.le_add_left 1 127⟩
    · rw [pending_eq_literal hnone, List.nil_append]
      rfl
  unfold addByte
  split
  next run hrun =>
    have hcount := hc.2 run hrun
    split
    next hsame =>
      refine ⟨rfl, ⟨hc.1, ?_⟩, [], readsAs_nil, ?_⟩
      · rintro run' ⟨⟩
        exact ⟨Nat.le_add_left _ _, hsame.2⟩
      · rw [pending_eq_append hrun, hsame.1, List.append_assoc, ← List.replicate_succ']
        rfl
    next =>
      obtain ⟨hclose, hnone⟩ := records_closeRun hc
      exact hclose.andThen (hopen _ hclose.bounded hnone)
  next hnone => exact hopen c hc hnone

theorem records_run {c : RunLength} (hc : Bounded c) (data : Bytes) :
    Records c data (Step.run addByte c data) := by
  induction data generalizing c with
  | nil => exact ⟨rfl, hc, [], readsAs_nil, List.append_nil _⟩
  | cons b data ih =>
    have hbyte := records_addByte hc b
    rw [Step.run_cons]
    exact hbyte.andThen (ih hbyte.bounded)

/-- The records of all the data, before the end mark. -/
theorem records_end {c : RunLength} (hc : Bounded c) :
    Records c [] ((closeRun c).andThen flushLiteral) ∧
      pending ((closeRun c).andThen flushLiteral).state = [] := by
  obtain ⟨hclose, hnone⟩ := records_closeRun hc
  obtain ⟨hflush, hstate⟩ := records_flushLiteral hclose.bounded
  refine ⟨hclose.andThen hflush, ?_⟩
  rw [Step.state_andThen hclose.no_fault, hstate, pending, hnone]
  rfl

/-- Reading what was written gives back the data. -/
theorem decoded_encoded (c : RunLength) (hc : Bounded c) (hnil : pending c = []) (data : Bytes) :
    ∃ out, encoded c data = some out ∧ decoded .header out = some data := by
  have hrun := records_run hc data
  obtain ⟨hend, hrest⟩ := records_end hrun.bounded
  have hall := hrun.andThen (f := fun c => (closeRun c).andThen flushLiteral) hend
  obtain ⟨read, hreads, hpending⟩ := hall.reads
  have hread : read = data := by
    rw [hnil, Step.state_andThen hrun.no_fault, hrest] at hpending
    simpa using hpending.symm
  rw [hread] at hreads
  have hwritten := (Step.yields_of_no_fault hall.no_fault).andThen (f := (.write · [eod]))
    (Step.yields_write _ [eod])
  rw [Step.andThen_assoc] at hwritten
  refine ⟨_, hwritten.output?, ?_⟩
  have hmark : (readOne .header eod).Yields .done [] := Step.yields_quiet _
  have hmarked := hreads.run_append hmark.run_singleton
  have hclosed := hmarked.andThen (f := closeExpect) (Step.yields_quiet _)
  rw [List.append_nil, List.append_nil] at hclosed
  exact hclosed.output?

end PdfStream.RunLength
