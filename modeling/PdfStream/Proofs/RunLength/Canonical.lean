import Mathlib.Data.List.Chain
import PdfStream.Proofs.RunLength.Records

/-!
The form in which data are encoded. Literals hold no two equal neighbours, and a record ends only
where it is full or where a record of the other kind, or a repeat of another byte, follows. The
length of the encoding is bounded from both sides by that of the data.
-/
namespace PdfStream.RunLength

namespace Record

def IsLiteral : Record → Prop
  | literal .. => True
  | copies .. => False

def Repeats (b : UInt8) : Record → Prop
  | literal .. => False
  | copies _ byte _ => byte = b

theorem IsLiteral.not_repeats {r : Record} (h : r.IsLiteral) (b : UInt8) : ¬r.Repeats b := by
  cases r with
  | literal => exact not_false
  | copies => exact h.elim

/-- It stands for as many bytes as a record can. -/
def IsFull (r : Record) : Prop := r.data.length = maxRun

/-- Sizes are in range, and a literal has no two equal neighbours. -/
def IsTight : Record → Prop
  | literal _ body _ _ => 1 ≤ body.length ∧ body.length ≤ maxRun ∧ body.IsChain (· ≠ ·)
  | copies header _ _ => 2 ≤ 257 - header.toNat ∧ 257 - header.toNat ≤ maxRun

/-- Two literals, or two repeats of the same byte, follow one another only if the first is full. -/
def Joins : Record → Record → Prop
  | r@(literal ..), literal .. => r.IsFull
  | r@(copies _ byte _), copies _ byte' _ => byte' = byte → r.IsFull
  | _, _ => True

end Record

structure IsCanonical (records : List Record) : Prop where
  tight : ∀ r ∈ records, r.IsTight
  chain : records.IsChain Record.Joins

theorem isCanonical_append {records more : List Record} :
    IsCanonical (records ++ more) ↔ IsCanonical records ∧ IsCanonical more ∧
      ∀ r ∈ records.getLast?, ∀ next ∈ more.head?, r.Joins next := by
  constructor
  · rintro ⟨htight, hchain⟩
    obtain ⟨hrecords, hmore, hjoin⟩ := List.isChain_append.1 hchain
    obtain ⟨htight, htight'⟩ := List.forall_mem_append.1 htight
    exact ⟨⟨htight, hrecords⟩, ⟨htight', hmore⟩, hjoin⟩
  · rintro ⟨hrecords, hmore, hjoin⟩
    exact ⟨List.forall_mem_append.2 ⟨hrecords.tight, hmore.tight⟩,
      List.isChain_append.2 ⟨hrecords.chain, hmore.chain, hjoin⟩⟩

theorem IsCanonical.append_singleton {records : List Record} {r : Record}
    (h : IsCanonical records) (htight : r.IsTight) (hjoin : ∀ s ∈ records.getLast?, s.Joins r) :
    IsCanonical (records ++ [r]) := by
  refine isCanonical_append.2 ⟨h, ⟨?_, List.isChain_singleton r⟩, ?_⟩
  · simpa using htight
  · simpa using hjoin

section
variable {records : List Record}

theorem two_le_length_bytes (r : Record) : 2 ≤ r.bytes.length := by
  cases r with
  | literal header body low whole =>
    rw [Record.bytes, List.length_cons, whole]
    omega
  | copies => exact Nat.le_refl 2

theorem Record.IsTight.length_data_le {r : Record} (h : r.IsTight) : r.data.length ≤ maxRun := by
  cases r with
  | literal => exact h.2.1
  | copies =>
    rw [Record.data, List.length_replicate]
    exact h.2

theorem length_bytes_ge (records : List Record) :
    2 * records.length ≤ (records.flatMap Record.bytes).length := by
  induction records with
  | nil => exact Nat.le_refl 0
  | cons r records ih =>
    have hr := two_le_length_bytes r
    rw [List.flatMap_cons, List.length_append, List.length_cons]
    omega

theorem IsCanonical.length_data_le (h : IsCanonical records) :
    (records.flatMap Record.data).length ≤ maxRun * records.length := by
  obtain ⟨htight, -⟩ := h
  induction records with
  | nil => exact Nat.le_refl 0
  | cons r records ih =>
    obtain ⟨hr, hrest⟩ := List.forall_mem_cons.1 htight
    have hfirst := hr.length_data_le
    rw [List.flatMap_cons, List.length_append, List.length_cons, Nat.mul_succ]
    have := ih hrest
    omega

/-- What a record may cost beyond four thirds of its data, in thirds of a byte. Only a literal in
front has any, since one behind a repeat is paid by it, and one behind a full literal by that. -/
def allowance : List Record → Nat
  | .literal .. :: _ => 2
  | _ => 0

theorem allowance_le (records : List Record) : allowance records ≤ 2 := by
  unfold allowance
  split <;> omega

/-- By induction on the records. -/
theorem IsCanonical.length_bytes_le (h : IsCanonical records) :
    3 * (records.flatMap Record.bytes).length ≤
      4 * (records.flatMap Record.data).length + allowance records := by
  induction records with
  | nil => exact Nat.le_refl 0
  | cons r records ih =>
    have hsplit : IsCanonical ([r] ++ records) := h
    obtain ⟨hfirst, hrest, hjoin⟩ := isCanonical_append.1 hsplit
    have htight := hfirst.tight r (List.mem_singleton_self r)
    have hmax : maxRun = 128 := rfl
    have hlater := ih hrest
    rw [List.flatMap_cons, List.flatMap_cons, List.length_append, List.length_append]
    cases r with
    | literal header body low whole =>
      have hbody := htight.1
      have hnext : allowance records = 0 ∨ body.length = maxRun := by
        rcases records with _ | ⟨_ | _, records⟩
        · exact .inl rfl
        · exact .inr (hjoin _ rfl _ rfl)
        · exact .inl rfl
      have hle := allowance_le records
      simp only [Record.bytes, Record.data, allowance, List.length_cons]
      omega
    | copies header byte high =>
      have hcount := htight.1
      have hle := allowance_le records
      simp only [Record.bytes, Record.data, allowance, List.length_cons, List.length_nil,
        List.length_replicate]
      omega

end

/-- The record of a literal. -/
def literalRecord (body : Bytes) (hne : body ≠ []) (hlength : body.length ≤ maxRun) : Record :=
  have hpos : 0 < body.length := List.length_pos_iff.2 hne
  have hmax : maxRun = 128 := rfl
  have hnat : (UInt8.ofNat (body.length - 1)).toNat = body.length - 1 := by
    rw [UInt8.toNat_ofNat']
    omega
  .literal (UInt8.ofNat (body.length - 1)) body
    (UInt8.lt_iff_toNat_lt.2 (by rw [hnat]; exact (by omega : body.length - 1 < 128)))
    (by rw [hnat, Nat.sub_add_cancel hpos])

theorem toNat_repeatHeader {run : Run} (htwo : 2 ≤ run.count) (hcount : run.count ≤ maxRun) :
    (UInt8.ofNat (257 - run.count)).toNat = 257 - run.count := by
  have hmax : maxRun = 128 := rfl
  rw [UInt8.toNat_ofNat']
  omega

/-- The record of a run of two or more. -/
def repeatRecord (run : Run) (htwo : 2 ≤ run.count) (hcount : run.count ≤ maxRun) : Record :=
  have hmax : maxRun = 128 := rfl
  .copies (UInt8.ofNat (257 - run.count)) run.byte (UInt8.lt_iff_toNat_lt.2
    (by rw [toNat_repeatHeader htwo hcount]; exact (by omega : 128 < 257 - run.count)))

section
variable {run : Run} (htwo : 2 ≤ run.count) (hcount : run.count ≤ maxRun)
include htwo hcount

theorem count_repeatHeader : 257 - (UInt8.ofNat (257 - run.count)).toNat = run.count := by
  have hmax : maxRun = 128 := rfl
  rw [toNat_repeatHeader htwo hcount]
  omega

theorem data_repeatRecord :
    (repeatRecord run htwo hcount).data = List.replicate run.count run.byte := by
  rw [repeatRecord, Record.data, count_repeatHeader htwo hcount]

theorem isTight_repeatRecord : (repeatRecord run htwo hcount).IsTight := by
  rw [repeatRecord, Record.IsTight, count_repeatHeader htwo hcount]
  exact ⟨htwo, hcount⟩

theorem joins_repeatRecord {r : Record} (h : r.Repeats run.byte → r.IsFull) :
    r.Joins (repeatRecord run htwo hcount) := by
  cases r with
  | literal => trivial
  | copies => exact fun hbyte => h hbyte.symm

end

/-- Behind the records and an open literal, a run of `b` begins a record of its own. -/
def Fits (records : List Record) (literal : Bytes) (b : UInt8) : Prop :=
  (∀ last ∈ literal.getLast?, last ≠ b) ∧
    (literal = [] → ∀ r ∈ records.getLast?, r.Repeats b → r.IsFull)

/-- Records in their form, and an open literal that may follow them. -/
structure IsOpen (records : List Record) (literal : Bytes) : Prop where
  canonical : IsCanonical records
  short : literal.length ≤ maxRun
  distinct : literal.IsChain (· ≠ ·)
  behind : ∀ r ∈ records.getLast?, r.IsLiteral → literal ≠ [] ∧ r.IsFull

/-- An encoder that has written `records`. Only before the first byte is there no run. -/
structure Tidy (records : List Record) (c : RunLength) : Prop extends IsOpen records c.literal where
  count : ∀ run, c.run = some run → 1 ≤ run.count ∧ run.count ≤ maxRun
  fits : ∀ run, c.run = some run → Fits records c.literal run.byte
  fresh : c.run = none → records = [] ∧ c.literal = []

theorem IsCanonical.isOpen_nil {records : List Record} (h : IsCanonical records)
    (hlast : ∀ r ∈ records.getLast?, ¬r.IsLiteral) : IsOpen records [] :=
  ⟨h, Nat.zero_le _, List.isChain_nil, fun r hr hliteral => absurd hliteral (hlast r hr)⟩

theorem IsCanonical.isOpen_singleton {records : List Record} (h : IsCanonical records)
    (hlast : ∀ r ∈ records.getLast?, r.IsLiteral → r.IsFull) (b : UInt8) : IsOpen records [b] :=
  ⟨h, Nat.le_add_left 1 127, List.isChain_singleton _, fun r hr hliteral =>
    ⟨List.cons_ne_nil _ _, hlast r hr hliteral⟩⟩

theorem IsOpen.append_singleton {records : List Record} {literal : Bytes} {b : UInt8}
    (h : IsOpen records literal) (hroom : literal.length < maxRun)
    (hlast : ∀ last ∈ literal.getLast?, last ≠ b) : IsOpen records (literal ++ [b]) := by
  refine ⟨h.canonical, Nat.le_trans (Nat.le_of_eq List.length_append) hroom, ?_, ?_⟩
  · refine List.isChain_append.2 ⟨h.distinct, List.isChain_singleton _, ?_⟩
    rintro last hmem _ ⟨⟩
    exact hlast last hmem
  · intro r hr hliteral
    exact ⟨List.append_ne_nil_of_right_ne_nil _ (List.cons_ne_nil _ _),
      (h.behind r hr hliteral).2⟩

theorem IsOpen.tidy {records : List Record} {c : RunLength} {run : Run}
    (h : IsOpen records c.literal) (hcount : 1 ≤ run.count ∧ run.count ≤ maxRun)
    (hfits : Fits records c.literal run.byte) : Tidy records { c with run := some run } := by
  refine ⟨h, ?_, ?_, nofun⟩
  · rintro _ ⟨⟩
    exact hcount
  · rintro _ ⟨⟩
    exact hfits

/-- The step writes `more`, which stands for the front of the data taken in. -/
structure Writes (c : RunLength) (taken : Bytes) (r : Step RunLength) (more : List Record) :
    Prop where
  no_fault : r.fault = none
  bytes : r.bytes = more.flatMap Record.bytes
  data : pending c ++ taken = more.flatMap Record.data ++ pending r.state

section
variable {c : RunLength} {records : List Record}

theorem Writes.andThen {taken taken' : Bytes} {r : Step RunLength} {more more' : List Record}
    {f : RunLength → Step RunLength} (h : Writes c taken r more)
    (h' : Writes r.state taken' (f r.state) more') :
    Writes c (taken ++ taken') (r.andThen f) (more ++ more') := by
  refine ⟨(Step.fault_andThen h.no_fault f).trans h'.no_fault, ?_, ?_⟩
  · rw [Step.bytes_andThen h.no_fault, h.bytes, h'.bytes, List.flatMap_append]
  · rw [Step.state_andThen h.no_fault, ← List.append_assoc, h.data, List.append_assoc, h'.data,
      List.flatMap_append, List.append_assoc]

theorem writes_quiet {taken : Bytes} {d : RunLength} (h : pending c ++ taken = pending d) :
    Writes c taken (.quiet d) [] := ⟨rfl, rfl, h⟩

/-- The open literal becomes a record. Nothing but a repeat, or the rest of a full literal, may
stand behind it. -/
theorem writes_flushLiteral (h : IsOpen records c.literal) :
    ∃ more, Writes c [] (flushLiteral c) more ∧ IsCanonical (records ++ more) ∧
      (flushLiteral c).state = { c with literal := [] } ∧
      (c.literal = [] ∧ more = [] ∨
        ∃ r, more = [r] ∧ r.IsLiteral ∧ r.data.length = c.literal.length) := by
  unfold flushLiteral
  split
  next hnil =>
    refine ⟨[], writes_quiet (List.append_nil _), ?_, ?_, .inl ⟨hnil, rfl⟩⟩
    · rw [List.append_nil]
      exact h.canonical
    · rw [← hnil]
      rfl
  next hne =>
    have hpos : 1 ≤ c.literal.length := List.length_pos_iff.2 hne
    refine ⟨[literalRecord c.literal hne h.short], ⟨rfl, ?_, ?_⟩, ?_, rfl,
      .inr ⟨_, rfl, trivial, rfl⟩⟩
    · simp [Step.bytes, literalRecord, Record.bytes]
    · simp [pending, literalRecord, Record.data]
    · refine h.canonical.append_singleton ⟨hpos, h.short, h.distinct⟩ ?_
      intro r hr
      cases r with
      | literal => exact (h.behind _ hr trivial).2
      | copies => trivial

/-- A single byte joins the literal, behind a full one if there is no room. -/
theorem writes_closeRun_single (h : Tidy records c) {run : Run} (hrun : c.run = some run)
    (hone : run.count = 1) :
    ∃ more, Writes c [] (closeRun c) more ∧ (closeRun c).state.run = none ∧
      IsOpen (records ++ more) (closeRun c).state.literal ∧
      (closeRun c).state.literal.getLast? = some run.byte := by
  have hfits := (h.fits run hrun).1
  have hjoin {d : RunLength} (hd : d.run = some run) :
      Writes d [] (.quiet { d with literal := d.literal ++ [run.byte], run := none }) [] := by
    apply writes_quiet
    rw [pending_eq_append hd, hone]
    simp [pending]
  by_cases hfull : c.literal.length = maxRun
  · obtain ⟨more, hflush, hcanonical, hstate, hmore⟩ := writes_flushLiteral h.toIsOpen
    have hclose : closeRun c = (flushLiteral c).andThen fun d =>
        .quiet { d with literal := d.literal ++ [run.byte], run := none } := by
      simp only [closeRun, hrun, hone, hfull, ↓reduceIte]
    have hlast : (closeRun c).state = { c with literal := [run.byte], run := none } := by
      rw [hclose, Step.state_andThen hflush.no_fault, hstate]
      rfl
    have hboth := hflush.andThen (f := fun d => .quiet { d with
      literal := d.literal ++ [run.byte], run := none }) (hjoin (by rw [hstate, hrun]))
    simp only [← hclose, List.append_nil] at hboth
    refine ⟨more, hboth, by rw [hlast], ?_, by rw [hlast]; rfl⟩
    rw [hlast]
    refine hcanonical.isOpen_singleton ?_ run.byte
    rcases hmore with ⟨hnil, -⟩ | ⟨s, rfl, -, hlength⟩
    · rw [hnil] at hfull
      cases hfull
    · rw [List.getLast?_concat]
      rintro r ⟨⟩ -
      exact hlength.trans hfull
  · have hclose :
        closeRun c = .quiet { c with literal := c.literal ++ [run.byte], run := none } := by
      simp only [closeRun, hrun, hone, hfull, ↓reduceIte, Step.quiet_andThen]
    have hroom : c.literal.length < maxRun := Nat.lt_of_le_of_ne h.short hfull
    rw [hclose]
    refine ⟨[], hjoin hrun, rfl, ?_, List.getLast?_concat⟩
    rw [List.append_nil]
    exact h.toIsOpen.append_singleton hroom hfits

/-- Two or more equal bytes become a repeat record behind the literal. -/
theorem writes_closeRun_repeat (h : Tidy records c) {run : Run} (hrun : c.run = some run)
    (hone : run.count ≠ 1) :
    ∃ more, Writes c [] (closeRun c) more ∧ (closeRun c).state.run = none ∧
      IsOpen (records ++ more) (closeRun c).state.literal ∧
      (closeRun c).state.literal = [] ∧
      ∃ r, (records ++ more).getLast? = some r ∧
        ∀ b, r.Repeats b → b = run.byte ∧ r.data.length = run.count := by
  obtain ⟨hcount, hmax⟩ := h.count run hrun
  have htwo : 2 ≤ run.count := by omega
  obtain ⟨more, hflush, hcanonical, hstate, hmore⟩ := writes_flushLiteral h.toIsOpen
  have hclose : closeRun c = (flushLiteral c).andThen fun d =>
      .write { d with run := none } [UInt8.ofNat (257 - run.count), run.byte] := by
    simp only [closeRun, hrun, hone, ↓reduceIte]
  have hlast : (closeRun c).state = { c with literal := [], run := none } := by
    rw [hclose, Step.state_andThen hflush.no_fault, hstate]
    rfl
  have hrun' : (flushLiteral c).state.run = some run := by rw [hstate, hrun]
  have hwrite : Writes (flushLiteral c).state [] (.write { (flushLiteral c).state with run := none }
      [UInt8.ofNat (257 - run.count), run.byte]) [repeatRecord run htwo hmax] := by
    refine ⟨rfl, ?_, ?_⟩
    · simp [repeatRecord, Record.bytes]
    · rw [pending_eq_append hrun', hstate, List.flatMap_cons, data_repeatRecord]
      simp [pending]
  have hboth := hflush.andThen (f := fun d => .write { d with run := none }
    [UInt8.ofNat (257 - run.count), run.byte]) hwrite
  rw [← hclose] at hboth
  have hfull : ∀ r ∈ (records ++ more).getLast?, r.Repeats run.byte → r.IsFull := by
    rcases hmore with ⟨hnil, rfl⟩ | ⟨s, rfl, hliteral, -⟩
    · rw [List.append_nil]
      exact (h.fits run hrun).2 hnil
    · rw [List.getLast?_concat]
      rintro r ⟨⟩ hrepeats
      exact absurd hrepeats (hliteral.not_repeats _)
  refine ⟨more ++ [repeatRecord run htwo hmax], hboth, by rw [hlast], ?_, by rw [hlast], ?_⟩
  · rw [hlast, ← List.append_assoc]
    refine (hcanonical.append_singleton (isTight_repeatRecord htwo hmax) fun r hr =>
      joins_repeatRecord htwo hmax (hfull r hr)).isOpen_nil ?_
    rw [List.getLast?_concat]
    rintro r ⟨⟩ hliteral
    exact hliteral
  · refine ⟨repeatRecord run htwo hmax, by rw [← List.append_assoc, List.getLast?_concat], ?_⟩
    rintro b rfl
    exact ⟨rfl, by rw [data_repeatRecord, List.length_replicate]⟩

/-- Behind a run that was closed because it was full, or because another byte came, that byte begins
a record of its own. -/
theorem writes_closeRun (h : Tidy records c) {run : Run} (hrun : c.run = some run) :
    ∃ more, Writes c [] (closeRun c) more ∧ (closeRun c).state.run = none ∧
      IsOpen (records ++ more) (closeRun c).state.literal ∧
      ∀ b, (b = run.byte → run.count = maxRun) →
        Fits (records ++ more) (closeRun c).state.literal b := by
  have hmax : maxRun = 128 := rfl
  by_cases hone : run.count = 1
  · obtain ⟨more, hwrites, hnone, hopen, hlast⟩ := writes_closeRun_single h hrun hone
    refine ⟨more, hwrites, hnone, hopen, ?_⟩
    intro b hb
    have hne : run.byte ≠ b := by
      rintro rfl
      have := hb rfl
      omega
    refine ⟨?_, fun hnil => ?_⟩
    · rw [hlast]
      rintro last ⟨⟩
      exact hne
    · rw [hnil] at hlast
      cases hlast
  · obtain ⟨more, hwrites, hnone, hopen, hnil, r, hr, hrepeats⟩ :=
      writes_closeRun_repeat h hrun hone
    refine ⟨more, hwrites, hnone, hopen, ?_⟩
    intro b hb
    rw [hnil, Fits, hr]
    refine ⟨nofun, fun _ => ?_⟩
    rintro r' ⟨⟩ hbyte
    obtain ⟨hsame, hlength⟩ := hrepeats b hbyte
    exact hlength.trans (hb hsame)

theorem writes_addByte (h : Tidy records c) (b : UInt8) :
    ∃ more, Writes c [b] (addByte c b) more ∧ Tidy (records ++ more) (addByte c b).state := by
  have hbegin {d : RunLength} (hnone : d.run = none) :
      Writes d [b] (.quiet { d with run := some ⟨b, 1⟩ }) [] :=
    writes_quiet (by rw [pending_eq_literal hnone]; rfl)
  cases hrun : c.run with
  | none =>
    obtain ⟨hrecords, hliteral⟩ := h.fresh hrun
    have hadd : addByte c b = .quiet { c with run := some ⟨b, 1⟩ } := by simp only [addByte, hrun]
    rw [hadd]
    refine ⟨[], hbegin hrun, ?_⟩
    rw [List.append_nil]
    refine h.toIsOpen.tidy ⟨Nat.le_refl 1, Nat.le_add_left 1 127⟩ ?_
    simp [Fits, hrecords, hliteral]
  | some run =>
    by_cases hgrow : b = run.byte ∧ run.count < maxRun
    · have hadd : addByte c b = .quiet { c with run := some ⟨b, run.count + 1⟩ } := by
        simp only [addByte, hrun, if_pos hgrow]
      rw [hadd]
      refine ⟨[], writes_quiet ?_, ?_⟩
      · rw [pending_eq_append hrun, hgrow.1, List.append_assoc, ← List.replicate_succ']
        rfl
      · rw [List.append_nil]
        have hfits := h.fits run hrun
        rw [← hgrow.1] at hfits
        exact h.toIsOpen.tidy ⟨Nat.le_add_left 1 _, hgrow.2⟩ hfits
    · obtain ⟨more, hclose, hnone, hopen, hfits⟩ := writes_closeRun h hrun
      have hadd : addByte c b = (closeRun c).andThen fun d =>
          .quiet { d with run := some ⟨b, 1⟩ } := by
        simp only [addByte, hrun, if_neg hgrow]
      have hboth := hclose.andThen (f := fun d => .quiet { d with run := some ⟨b, 1⟩ })
        (hbegin hnone)
      have hstate : (addByte c b).state = { (closeRun c).state with run := some ⟨b, 1⟩ } := by
        rw [hadd, Step.state_andThen hclose.no_fault]
        rfl
      have hcapped : b = run.byte → run.count = maxRun := by
        intro hbyte
        have hcount := (h.count run hrun).2
        have hnot : ¬run.count < maxRun := fun hless => hgrow ⟨hbyte, hless⟩
        omega
      rw [← hadd, List.append_nil] at hboth
      refine ⟨more, hboth, ?_⟩
      rw [hstate]
      exact hopen.tidy ⟨Nat.le_refl 1, Nat.le_add_left 1 127⟩ (hfits b hcapped)

/-- By induction on the data. -/
theorem writes_run (h : Tidy records c) (data : Bytes) :
    ∃ more, Writes c data (Step.run addByte c data) more ∧
      Tidy (records ++ more) (Step.run addByte c data).state := by
  induction data generalizing c records with
  | nil => exact ⟨[], writes_quiet (List.append_nil _), by rwa [List.append_nil]⟩
  | cons b data ih =>
    obtain ⟨more, hbyte, htidy⟩ := writes_addByte h b
    obtain ⟨more', hrest, htidy'⟩ := ih htidy
    refine ⟨more ++ more', ?_, ?_⟩
    · rw [Step.run_cons]
      exact hbyte.andThen hrest
    · rw [Step.run_cons, Step.state_andThen hbyte.no_fault, ← List.append_assoc]
      exact htidy'

/-- The end leaves nothing open. -/
theorem writes_end (h : Tidy records c) :
    ∃ more, Writes c [] ((closeRun c).andThen flushLiteral) more ∧
      IsCanonical (records ++ more) ∧
      pending ((closeRun c).andThen flushLiteral).state = [] := by
  have hclosed : ∃ more, Writes c [] (closeRun c) more ∧ (closeRun c).state.run = none ∧
      IsOpen (records ++ more) (closeRun c).state.literal := by
    cases hrun : c.run with
    | none =>
      have hclose : closeRun c = .quiet c := by simp only [closeRun, hrun]
      rw [hclose]
      refine ⟨[], writes_quiet (List.append_nil _), hrun, ?_⟩
      rw [List.append_nil]
      exact h.toIsOpen
    | some run =>
      obtain ⟨more, hclose, hnone, hopen, -⟩ := writes_closeRun h hrun
      exact ⟨more, hclose, hnone, hopen⟩
  obtain ⟨more, hclose, hnone, hopen⟩ := hclosed
  obtain ⟨more', hflush, hcanonical, hstate, -⟩ := writes_flushLiteral hopen
  refine ⟨more ++ more', hclose.andThen hflush, ?_, ?_⟩
  · rwa [← List.append_assoc]
  · rw [Step.state_andThen hclose.no_fault, hstate, pending_eq_literal]
    exact hnone

theorem exists_canonical (c : RunLength) (data : Bytes) :
    ∃ records : List Record, IsCanonical records ∧ records.flatMap Record.data = data ∧
      encoded { c with literal := [], run := none } data =
        some (records.flatMap Record.bytes ++ [eod]) := by
  have hstart : Tidy [] { c with literal := [], run := none } :=
    ⟨⟨⟨nofun, List.isChain_nil⟩, Nat.zero_le _, List.isChain_nil, nofun⟩, nofun, nofun,
      fun _ => ⟨rfl, rfl⟩⟩
  obtain ⟨more, hrun, htidy⟩ := writes_run hstart data
  obtain ⟨more', hend, hcanonical, hnothing⟩ := writes_end htidy
  have hall := hrun.andThen (f := fun d => (closeRun d).andThen flushLiteral) hend
  refine ⟨more ++ more', hcanonical, ?_, ?_⟩
  · have hdata := hall.data
    rw [Step.state_andThen hrun.no_fault, hnothing, List.append_nil, List.append_nil] at hdata
    exact hdata.symm
  · have hwritten := (Step.yields_of_no_fault hall.no_fault).andThen (f := (.write · [eod]))
      (Step.yields_write _ [eod])
    rw [Step.andThen_assoc, hall.bytes] at hwritten
    exact hwritten.output?

end

/-- A session writes records in their form and one end mark behind them, whatever the blocks in
which the data come. Besides the mark there are at least two bytes for every 128 bytes of data and
for what is left of them, and at most four thirds of the data and two thirds of a byte. -/
theorem session_encode_canonical (c : RunLength) (ctx : CryptoContext)
    (parms : Option DecodeParms) (blocks : List Bytes) :
    ∃ (records : List Record) (out : Bytes),
      ((Codec.runLength c).session .encode ctx parms blocks).output? = some out ∧
      out = records.flatMap Record.bytes ++ [eod] ∧
      blocks.flatten = records.flatMap Record.data ∧
      (∀ r ∈ records, r.IsTight) ∧ records.IsChain Record.Joins ∧
      1 + 2 * ((blocks.flatten.length + 127) / 128) ≤ out.length ∧
      3 * (out.length - 1) ≤ 4 * blocks.flatten.length + 2 := by
  obtain ⟨records, hcanonical, hdata, hout⟩ := exists_canonical c blocks.flatten
  have hshort := hcanonical.length_data_le
  have hlong := hcanonical.length_bytes_le
  have hrecords := length_bytes_ge records
  have hallowed := allowance_le records
  rw [hdata, show maxRun = 128 from rfl] at hshort
  rw [hdata] at hlong
  refine ⟨records, _, (encode_makes c ctx parms blocks).trans hout, rfl, hdata.symm,
    hcanonical.tight, hcanonical.chain, ?_, ?_⟩
  · rw [List.length_append, List.length_singleton]
    omega
  · rw [List.length_append, List.length_singleton]
    omega

end PdfStream.RunLength
