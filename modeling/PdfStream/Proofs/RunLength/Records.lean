import PdfStream.Proofs.Codec

/-!
Encoded data record by record. Behind complete records the data end, go on behind the end mark, or
break off inside a record. What a decode session writes and how it ends can be read off from that,
and blocks do not come into it.
-/
namespace PdfStream

namespace RunLength

/-- A complete record. -/
inductive Record where
  | literal (header : UInt8) (body : Bytes) (low : header < eod)
      (whole : body.length = header.toNat + 1)
  | copies (header byte : UInt8) (high : eod < header)

def Record.bytes : Record → Bytes
  | literal header body _ _ => header :: body
  | copies header byte _ => [header, byte]

/-- What the record stands for. -/
def Record.data : Record → Bytes
  | literal _ body _ _ => body
  | copies header byte _ => List.replicate (257 - header.toNat) byte

/-- What is left behind complete records. -/
inductive Ending where
  | nothing
  | mark (ignored : Bytes)
  | literalCut (header : UInt8) (part : Bytes) (low : header < eod)
      (short : part.length ≤ header.toNat)
  | repeatCut (header : UInt8) (high : eod < header)

namespace Ending

def bytes : Ending → Bytes
  | nothing => []
  | mark ignored => eod :: ignored
  | literalCut header part _ _ => header :: part
  | repeatCut header _ => [header]

/-- A literal counts as far as it has come in. -/
def data : Ending → Bytes
  | literalCut _ part _ _ => part
  | nothing | mark _ | repeatCut .. => []

/-- What is wrong with the data, if they may not end here. -/
def fault? : Ending → Option DecodeFault
  | nothing | mark _ => none
  | literalCut header part _ _ => some (.literalCut (header.toNat + 1 - part.length))
  | repeatCut .. => some .repeatCut

/-- What the reader is left to expect. -/
def expect : Ending → Expect
  | nothing => .header
  | mark _ => .done
  | literalCut header part _ _ => .literal (header.toNat + 1 - part.length)
  | repeatCut header _ => .copies (257 - header.toNat)

theorem data_of_no_fault {ending : Ending} (h : ending.fault? = none) : ending.data = [] := by
  cases ending with
  | nothing | mark => rfl
  | literalCut | repeatCut => cases h

theorem bytes_of_no_fault {ending : Ending} (h : ending.fault? = none) :
    ending.bytes = [] ∨ ∃ ignored, ending.bytes = eod :: ignored := by
  cases ending with
  | nothing => exact .inl rfl
  | mark ignored => exact .inr ⟨ignored, rfl⟩
  | literalCut | repeatCut => cases h

end Ending

theorem ofHeader_of_low {header : UInt8} (low : header < eod) :
    Expect.ofHeader header = .literal (header.toNat + 1) := if_pos low

theorem ofHeader_of_high {header : UInt8} (high : eod < header) :
    Expect.ofHeader header = .copies (257 - header.toNat) := by
  have hlow : ¬header < eod := fun h => UInt8.lt_irrefl _ (UInt8.lt_trans h high)
  have hmark : header ≠ eod := by
    rintro rfl
    exact UInt8.lt_irrefl _ high
  rw [Expect.ofHeader, if_neg hlow, if_neg hmark]

theorem header_cases (header : UInt8) : header < eod ∨ header = eod ∨ eod < header := by
  simp only [UInt8.lt_iff_toNat_lt, ← UInt8.toNat_inj]
  exact Nat.lt_trichotomy _ _

theorem readsAs_record (record : Record) : ReadsAs record.bytes record.data := by
  cases record with
  | literal header body low whole =>
    have hbody : body ≠ [] := List.ne_nil_of_length_eq_add_one whole
    have hheader : (readOne .header header).Yields (.literal body.length) [] := by
      rw [readOne, ofHeader_of_low low, whole]
      exact Step.yields_quiet _
    have hread := hheader.andThen (f := (Step.run readOne · body)) (run_readOne_literal body hbody)
    rwa [← Step.run_cons] at hread
  | copies header byte high =>
    have hheader : (readOne .header header).Yields (.copies (257 - header.toNat)) [] := by
      rw [readOne, ofHeader_of_high high]
      exact Step.yields_quiet _
    have hbyte : (readOne (.copies (257 - header.toNat)) byte).Yields .header
        (List.replicate (257 - header.toNat) byte) := Step.yields_write _ _
    have hread := hheader.andThen (f := (Step.run readOne · [byte])) hbyte.run_singleton
    rwa [← Step.run_cons] at hread

theorem readsAs_records (records : List Record) :
    ReadsAs (records.flatMap Record.bytes) (records.flatMap Record.data) := by
  induction records with
  | nil => exact readsAs_nil
  | cons record records ih =>
    rw [List.flatMap_cons, List.flatMap_cons]
    exact (readsAs_record record).append ih

theorem run_readOne_done (ignored : Bytes) : (Step.run readOne .done ignored).Yields .done [] := by
  induction ignored with
  | nil => exact Step.yields_quiet _
  | cons b ignored ih =>
    rw [Step.run_cons]
    exact (Step.yields_quiet Expect.done).andThen (f := (Step.run readOne · ignored)) ih

/-- A literal that the bytes do not fill. -/
theorem run_readOne_part {part : Bytes} {remaining : Nat} (h : part.length < remaining) :
    (Step.run readOne (.literal remaining) part).Yields (.literal (remaining - part.length))
      part := by
  induction part generalizing remaining with
  | nil => exact Step.yields_quiet _
  | cons b part ih =>
    rw [List.length_cons] at h
    have hone : (readOne (.literal remaining) b).Yields (.literal (remaining - 1)) [b] := by
      rw [readOne, if_neg (by omega)]
      exact Step.yields_write _ _
    have hless : part.length < remaining - 1 := by omega
    have hpart := ih hless
    rw [Nat.sub_sub, Nat.add_comm 1] at hpart
    rw [Step.run_cons]
    exact hone.andThen hpart

theorem run_readOne_ending (ending : Ending) :
    (Step.run readOne .header ending.bytes).Yields ending.expect ending.data := by
  cases ending with
  | nothing => exact Step.yields_quiet _
  | mark ignored =>
    have hmark : (readOne .header eod).Yields .done [] := Step.yields_quiet _
    have hread := hmark.andThen (f := (Step.run readOne · ignored)) (run_readOne_done ignored)
    rwa [← Step.run_cons] at hread
  | literalCut header part low short =>
    have hheader : (readOne .header header).Yields (.literal (header.toNat + 1)) [] := by
      rw [readOne, ofHeader_of_low low]
      exact Step.yields_quiet _
    have hread := hheader.andThen (f := (Step.run readOne · part))
      (run_readOne_part (Nat.lt_succ_of_le short))
    rwa [← Step.run_cons] at hread
  | repeatCut header high =>
    have hheader : (readOne .header header).Yields (.copies (257 - header.toNat)) [] := by
      rw [readOne, ofHeader_of_high high]
      exact Step.yields_quiet _
    exact hheader.run_singleton

/-- All data are complete records and an ending. -/
theorem exists_records (bytes : Bytes) : ∃ records : List Record, ∃ ending : Ending,
    bytes = records.flatMap Record.bytes ++ ending.bytes := by
  match bytes with
  | [] => exact ⟨[], .nothing, rfl⟩
  | header :: rest =>
    rcases header_cases header with low | rfl | high
    · by_cases short : rest.length ≤ header.toNat
      · exact ⟨[], .literalCut header rest low short, rfl⟩
      · have whole : (rest.take (header.toNat + 1)).length = header.toNat + 1 := by
          rw [List.length_take]
          omega
        obtain ⟨records, ending, hmore⟩ := exists_records (rest.drop (header.toNat + 1))
        refine ⟨.literal header _ low whole :: records, ending, ?_⟩
        rw [List.flatMap_cons, List.append_assoc, ← hmore, Record.bytes, List.cons_append,
          List.take_append_drop]
    · exact ⟨[], .mark rest, rfl⟩
    · cases rest with
      | nil => exact ⟨[], .repeatCut header high, rfl⟩
      | cons byte rest =>
        obtain ⟨records, ending, hmore⟩ := exists_records rest
        refine ⟨.copies header byte high :: records, ending, ?_⟩
        rw [List.flatMap_cons, List.append_assoc, ← hmore]
        rfl
termination_by bytes.length
decreasing_by
  all_goals simp only [List.length_cons, List.length_drop]; omega

theorem run_decodeBlock (c : RunLength) (blocks : List Bytes) :
    (Step.run (fun c data => c.block .decode data) (Codec.runLength c) blocks).Yields
      (.runLength { c with expect := (Step.run readOne c.expect blocks.flatten).state })
      (Step.run readOne c.expect blocks.flatten).bytes := by
  induction blocks generalizing c with
  | nil => exact Step.yields_quiet _
  | cons data blocks ih =>
    obtain ⟨hfault, hexpect, hbytes⟩ := decodeBlock_eq c data
    have hblock : ((Codec.runLength c).block .decode data).Yields
        (.runLength { c with expect := (Step.run readOne c.expect data).state })
        (Step.run readOne c.expect data).bytes := by
      rw [← hexpect]
      exact ⟨hfault, rfl, hbytes⟩
    have hread := run_readOne_fault c.expect data
    rw [Step.run_cons, List.flatten_cons, Step.run_append, Step.state_andThen hread,
      Step.bytes_andThen hread]
    exact hblock.andThen (ih _)

theorem fed_decode (c : RunLength) (ctx : CryptoContext) (parms : Option DecodeParms)
    (blocks : List Bytes) : ((Codec.runLength c).fed .decode ctx parms blocks).Yields
      (.runLength { c with expect := (Step.run readOne .header blocks.flatten).state })
      (Step.run readOne .header blocks.flatten).bytes := by
  have hbegin : ((Codec.runLength c).start .decode ctx parms).2 =
      .quiet (.runLength { c with expect := .header }) := rfl
  rw [Codec.fed, hbegin, Step.quiet_andThen]
  exact run_decodeBlock { c with expect := .header } blocks

/-- The records are decoded, with what there is of a last literal, before the end of the session
tells whether the data may end there. -/
theorem fed_decode_records (c : RunLength) (ctx : CryptoContext) (parms : Option DecodeParms)
    {blocks : List Bytes} {records : List Record} {ending : Ending}
    (h : blocks.flatten = records.flatMap Record.bytes ++ ending.bytes) :
    ((Codec.runLength c).fed .decode ctx parms blocks).Yields
      (.runLength { c with expect := ending.expect })
      (records.flatMap Record.data ++ ending.data) := by
  have hall := (readsAs_records records).run_append (run_readOne_ending ending)
  rw [← h] at hall
  have hfed := fed_decode c ctx parms blocks
  rwa [hall.2.1, hall.2.2] at hfed

theorem finish_decode (c : RunLength) (ending : Ending) :
    (Codec.runLength { c with expect := ending.expect }).finish .decode =
      ⟨.runLength { c with expect := ending.expect }, #[], ending.fault?.map .decode⟩ := by
  cases ending <;> rfl

theorem session_decode_records (c : RunLength) (ctx : CryptoContext) (parms : Option DecodeParms)
    {blocks : List Bytes} {records : List Record} {ending : Ending}
    (h : blocks.flatten = records.flatMap Record.bytes ++ ending.bytes) :
    ((Codec.runLength c).session .decode ctx parms blocks).fault = ending.fault?.map .decode ∧
      ((Codec.runLength c).session .decode ctx parms blocks).bytes =
        records.flatMap Record.data ++ ending.data := by
  obtain ⟨hfault, hstate, hbytes⟩ := fed_decode_records c ctx parms h
  rw [Codec.session_eq_fed]
  constructor
  · rw [Step.fault_andThen hfault, hstate, finish_decode]
  · rw [Step.bytes_andThen hfault, hstate, finish_decode, hbytes]
    simp [Step.bytes]

section
variable {c : RunLength} {ctx : CryptoContext} {parms : Option DecodeParms} {blocks : List Bytes}
  {records : List Record} {ending : Ending}

theorem session_decode_of_no_fault
    (h : blocks.flatten = records.flatMap Record.bytes ++ ending.bytes)
    (hnone : ending.fault? = none) :
    ((Codec.runLength c).session .decode ctx parms blocks).output? =
      some (records.flatMap Record.data) := by
  obtain ⟨hfault, hbytes⟩ := session_decode_records c ctx parms h
  rw [hnone] at hfault
  rw [Step.output?_of_no_fault hfault, hbytes, ending.data_of_no_fault hnone, List.append_nil]

theorem session_decode_of_fault {fault : DecodeFault}
    (h : blocks.flatten = records.flatMap Record.bytes ++ ending.bytes)
    (hsome : ending.fault? = some fault) :
    ((Codec.runLength c).session .decode ctx parms blocks).output? = none := by
  obtain ⟨hfault, -⟩ := session_decode_records c ctx parms h
  rw [hsome] at hfault
  exact Step.output?_of_fault hfault

end

/-- A session accepts complete records, alone or in front of the end mark, and makes their data of
them. On any other bytes all blocks still go through, with the data of the complete records and of
what there is of a last literal, and only the end of the session fails, because of the record that
is cut. No session depends on the blocks. -/
theorem session_decode_iff_records (c : RunLength) (ctx : CryptoContext)
    (parms : Option DecodeParms) (blocks : List Bytes) :
    (∀ data, ((Codec.runLength c).session .decode ctx parms blocks).output? = some data ↔
      ∃ records : List Record, data = records.flatMap Record.data ∧
        (blocks.flatten = records.flatMap Record.bytes ∨
          ∃ ignored, blocks.flatten = records.flatMap Record.bytes ++ eod :: ignored)) ∧
    ((¬∃ data, ((Codec.runLength c).session .decode ctx parms blocks).output? = some data) ↔
      ∃ (records : List Record) (ending : Ending) (fault : DecodeFault) (s : Codec),
        blocks.flatten = records.flatMap Record.bytes ++ ending.bytes ∧
        ending.fault? = some fault ∧
        ((Codec.runLength c).fed .decode ctx parms blocks).Yields s
          (records.flatMap Record.data ++ ending.data) ∧
        s.finish .decode = .stop s (.decode fault)) ∧
    ((Codec.runLength c).session .decode ctx parms blocks).bytes =
      ((Codec.runLength c).session .decode ctx parms [blocks.flatten]).bytes ∧
    ((Codec.runLength c).session .decode ctx parms blocks).fault =
      ((Codec.runLength c).session .decode ctx parms [blocks.flatten]).fault := by
  obtain ⟨records, ending, h⟩ := exists_records blocks.flatten
  refine ⟨fun data => ⟨?_, ?_⟩, ⟨?_, ?_⟩, ?_⟩
  · intro hdata
    cases hfault : ending.fault? with
    | some fault =>
      rw [session_decode_of_fault h hfault] at hdata
      cases hdata
    | none =>
      rw [session_decode_of_no_fault h hfault] at hdata
      refine ⟨records, (Option.some.inj hdata).symm, ?_⟩
      rcases ending.bytes_of_no_fault hfault with hend | ⟨ignored, hend⟩
      · rw [hend, List.append_nil] at h
        exact .inl h
      · rw [hend] at h
        exact .inr ⟨ignored, h⟩
  · rintro ⟨records, rfl, hwhole | ⟨ignored, hmark⟩⟩
    · have hnothing : blocks.flatten = records.flatMap Record.bytes ++ Ending.nothing.bytes := by
        rw [hwhole]
        exact (List.append_nil _).symm
      exact session_decode_of_no_fault hnothing rfl
    · have hbehind : blocks.flatten =
          records.flatMap Record.bytes ++ (Ending.mark ignored).bytes := hmark
      exact session_decode_of_no_fault hbehind rfl
  · intro hnot
    cases hfault : ending.fault? with
    | none => exact absurd ⟨_, session_decode_of_no_fault h hfault⟩ hnot
    | some fault =>
      refine ⟨records, ending, fault, _, h, hfault, fed_decode_records c ctx parms h, ?_⟩
      rw [finish_decode, hfault]
      rfl
  · rintro ⟨records, ending, fault, -, h, hfault, -⟩ ⟨data, hdata⟩
    rw [session_decode_of_fault h hfault] at hdata
    cases hdata
  · have hone : [blocks.flatten].flatten = records.flatMap Record.bytes ++ ending.bytes := by
      rw [List.flatten_singleton, h]
    obtain ⟨hfault, hbytes⟩ := session_decode_records c ctx parms h
    obtain ⟨hfault', hbytes'⟩ := session_decode_records c ctx parms hone
    exact ⟨hbytes.trans hbytes'.symm, hfault.trans hfault'.symm⟩

end RunLength
end PdfStream
