import PdfStream.Proofs.Chain.Session

/-!
A chain computes the composition of its stages. However the input is cut into blocks, a session
returns what the codecs make of the whole input one after the other, and breaks off if one of them
fails. Only where data reach an LZW decoder that are not calm the blocks may tell.
-/
namespace PdfStream.Chain
variable {direction : Direction} {stages : List Stage}

/-- The codecs alone, each one-shot on the whole output of the one before. -/
def compose (direction : Direction) (ctx : CryptoContext) (stages : List Stage) (data : Bytes) :
    Except Error Bytes :=
  stages.foldlM
    (fun data s => s.engine.codec.oneShot direction ctx (s.parmsFor direction) data) data

theorem compose_cons (ctx : CryptoContext) (s : Stage) (data : Bytes) :
    compose direction ctx (s :: stages) data =
      s.engine.codec.oneShot direction ctx (s.parmsFor direction) data >>=
        compose direction ctx stages := List.foldlM_cons

theorem compose_append (ctx : CryptoContext) (stages' : List Stage) (data : Bytes) :
    compose direction ctx (stages ++ stages') data =
      compose direction ctx stages data >>= compose direction ctx stages' := List.foldlM_append

/-- The codecs do not tell the contexts apart that their sessions leave behind. -/
theorem through_eq_compose
    (hdet : direction = .encode → ∀ s ∈ stages, s.engine.codec.IsDeterministic)
    {ctx ctx' : CryptoContext} (h : ctx'.Matches ctx) (data : Bytes) :
    through direction stages ctx' data = (compose direction ctx stages data).toOption := by
  induction stages generalizing ctx' data with
  | nil => rfl
  | cons s stages ih =>
    have hstart : (s.engine.codec.start direction ctx' (s.parmsFor direction)).2 =
        (s.engine.codec.start direction ctx (s.parmsFor direction)).2 := by
      cases direction with
      | encode => exact Codec.beginEncode_congr (hdet rfl s List.mem_cons_self) h
      | decode => exact s.engine.codec.beginDecode_congr s.parms h
    have hmatches := s.engine.codec.start_matches direction ctx' (s.parmsFor direction)
    have hdet' (hencode : direction = .encode) (s' : Stage) (hs' : s' ∈ stages) :
        s'.engine.codec.IsDeterministic := hdet hencode s' (List.mem_cons_of_mem s hs')
    rw [through, compose_cons, Codec.oneShot_congr hstart]
    cases s.engine.codec.oneShot direction ctx (s.parmsFor direction) data with
    | error e => rfl
    | ok out => exact ih hdet' (hmatches.trans h) out

theorem atRest_empty : ({} : Chain).AtRest := ⟨rfl, fun _ hs => absurd hs List.not_mem_nil⟩

theorem forall_mem_push {P : Stage → Prop} {c : Chain} (h : ∀ s ∈ c.stages, P s) {codec : Codec}
    {parms : Option DecodeParms} (hcodec : P { engine := { codec }, parms }) :
    ∀ s ∈ (c.push codec parms).stages, P s := by
  intro s hs
  rcases List.mem_append.1 hs with hs | hs
  · exact h s hs
  · rw [List.mem_singleton.1 hs]
    exact hcodec

theorem AtRest.push {c : Chain} (h : c.AtRest) (codec : Codec) (parms : Option DecodeParms) :
    (c.push codec parms).AtRest := by
  obtain ⟨hphase, hall⟩ := h
  exact ⟨hphase, forall_mem_push hall rfl⟩

/-- A session on an empty buffer returns what the codecs make of the whole input one after the
other, and breaks off if one of them fails. To encode, the codecs must leave no choice; to decode,
the data must be calm. -/
theorem runSession_eq_compose {c : Chain} (hc : c.AtRest) (direction : Direction)
    (hdet : direction = .encode → ∀ s ∈ c.stages, s.engine.codec.IsDeterministic)
    (ctx : CryptoContext) (blocks : List Bytes)
    (hcalm : direction = .decode → ReadsCalm (inOrder direction c.stages) ctx blocks.flatten) :
    (∀ out, (∃ sink, (c.runSession direction .buffer ctx blocks).2.2 = .returned sink ∧
        sink.content = out) ↔
      compose direction ctx (inOrder direction c.stages) blocks.flatten = .ok out) ∧
    ((∃ e sink, (c.runSession direction .buffer ctx blocks).2.2 = .broken e sink) ↔
      ∃ e, compose direction ctx (inOrder direction c.stages) blocks.flatten = .error e) := by
  have hall : direction = .encode →
      ∀ s ∈ inOrder direction c.stages, s.engine.codec.IsDeterministic :=
    fun hencode s hs => hdet hencode s (mem_inOrder.1 hs)
  have hthrough := through_eq_compose hall (.refl ctx) blocks.flatten
  generalize compose direction ctx (inOrder direction c.stages) blocks.flatten = result
    at hthrough ⊢
  rcases runSession_spec hc direction ctx blocks hcalm with ⟨⟨c', e, sink, hrun, -⟩, hnone⟩ |
    ⟨ctx', c', sink, hrun, -, -, -, -, hsome⟩
  · rw [hrun]
    rw [hnone] at hthrough
    cases result with
    | ok out => cases hthrough
    | error e' =>
      constructor
      · intro out
        constructor
        · rintro ⟨sink, ⟨⟩, -⟩
        · rintro ⟨⟩
      · exact ⟨fun _ => ⟨e', rfl⟩, fun _ => ⟨e, sink, rfl⟩⟩
  · rw [hrun]
    rw [hsome] at hthrough
    cases result with
    | error e => cases hthrough
    | ok out =>
      cases hthrough
      constructor
      · intro out
        constructor
        · rintro ⟨sink', ⟨⟩, rfl⟩
          rfl
        · rintro ⟨⟩
          exact ⟨sink, rfl, rfl⟩
      · constructor
        · rintro ⟨e, sink', ⟨⟩⟩
        · rintro ⟨e, ⟨⟩⟩

theorem runSession_eq_compose_hex :
    ∃ sink, (((({} : Chain).push (.lzw {}) none).push (.asciiHex {}) none).runSession .decode
        .buffer {} [[0x38, 0x30, 0x31], [], [0x30, 0x34, 0x38, 0x35, 0x30, 0x31, 0x30]]).2.2 =
          .returned sink ∧
      sink.content = [0x41, 0x42] := by
  have hrest := (atRest_empty.push (.lzw {}) none).push (.asciiHex {}) none
  obtain ⟨hreturned, -⟩ := runSession_eq_compose hrest .decode nofun {}
    [[0x38, 0x30, 0x31], [], [0x30, 0x34, 0x38, 0x35, 0x30, 0x31, 0x30]] fun _ => by decide +kernel
  exact (hreturned _).2 (by decide +kernel)

/-- With a clear code between its letters a word comes out of a chain, whose end is a block too, but
not out of the codec alone. -/
theorem runSession_ne_compose :
    (∃ sink, ((({} : Chain).push (.lzw {}) none).runSession .decode .buffer {}
        [[0x80, 0x10, 0x60, 0x04, 0x28, 0x08]]).2.2 = .returned sink ∧
      sink.content = [0x41, 0x42]) ∧
    compose .decode {} (inOrder .decode (({} : Chain).push (.lzw {}) none).stages)
      [0x80, 0x10, 0x60, 0x04, 0x28, 0x08] = .error (.decode .lzwCut) := by
  have hword : ((({} : Chain).push (.lzw {}) none).runSession .decode .buffer {}
      [[0x80, 0x10, 0x60, 0x04, 0x28, 0x08]]).2.2.output = .ok [0x41, 0x42] := by decide +kernel
  exact ⟨Reply.exists_returned hword (List.cons_ne_nil _ _), by decide +kernel⟩

end PdfStream.Chain
