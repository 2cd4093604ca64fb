import PdfStream.Proofs.Flate.Reader
import PdfStream.Proofs.Flate.Stream
import PdfStream.Proofs.Flate.Written

/-!
Inflating what was deflated. Both are sessions of the codec, in whatever blocks their data come; what
one writes is a stream, and the other reads all streams.
-/
namespace PdfStream
namespace Flate

/-- Scanning all that was written, and nothing less, gives back all the data. -/
theorem Deflate.delimits_ofBytes_encoded (level : Nat) (data : Bytes) :
    ∃ out, encoded { level } data = some out ∧
      Delimits (fun out => ({} : Inflate).scan (Bits.ofBytes .lowFirst out)) out data := by
  obtain ⟨out, hout, hzlib⟩ := encoded_isZlib level data
  exact ⟨out, hout, hzlib.delimits⟩

theorem Deflate.scan_ofBytes_encoded (level : Nat) (data : Bytes) :
    ∃ out, encoded { level } data = some out ∧
      ({} : Inflate).scan (Bits.ofBytes .lowFirst out) = some data := by
  obtain ⟨out, hout, hdelimits⟩ := delimits_ofBytes_encoded level data
  exact ⟨out, hout, hdelimits.eq_some⟩

theorem encodeBlock_eq {c : Flate} {d : Deflate} (h : c.encoder = some d) (data : Bytes) :
    c.encodeBlock data = (d.feed data).map fun d => { c with encoder := some d } := by
  unfold encodeBlock
  split
  next hnil =>
    have hfeed : d.feed [] = .quiet d := by
      rw [Deflate.feed, Step.run_nil]
      simp [Step.inSpans, Step.quiet, Step.bytes, Bytes.chunks]
    obtain ⟨level, encoder, reader, predictor, finished⟩ := c
    cases h
    rw [hnil, hfeed]
    rfl
  next => rw [h]

/-- A session that is open for encoding makes what its encoder makes. -/
theorem encode_computes (c : Flate) (d : Deflate) :
    (Codec.coder .encode).Computes (.flate { c with encoder := some d }) d.encoded := by
  refine (Deflate.writing_computes d).embed (Codec.coder .encode)
    (fun d => .flate { c with encoder := some d }) (fun d data => ?_) fun d => rfl
  have hblock := encodeBlock_eq (c := { c with encoder := some d }) rfl data
  exact congrArg (Step.map Codec.flate) hblock

theorem decode_computes {c : Flate} (hc : c.IsDecoding) :
    (Codec.coder .decode).Computes (.flate c) (decoded c) :=
  (decoding_computes hc).embed (Codec.coder .decode) Codec.flate (fun _ _ => rfl) fun _ => rfl

theorem encode_makes (c : Flate) (ctx : CryptoContext) (parms : Option DecodeParms) :
    (Codec.flate c).Makes .encode ctx parms (Deflate.encoded { level := c.level }) :=
  Codec.makes_of_quiet rfl (encode_computes c { level := c.level })

/-- A session whose parameters have been read makes what the predictor makes of what the bits stand
for. -/
theorem decode_makes_of_parms (c : Flate) {parms : Option DecodeParms} {predictor : Option Predictor}
    (h : Predictor.ofParms parms = .ok predictor) (ctx : CryptoContext) :
    (Codec.flate c).Makes .decode ctx parms fun data =>
      (({} : Inflate).scan (Bits.ofBytes .lowFirst data)).bind (Predictor.postPass predictor) := by
  obtain ⟨s, hs⟩ : ∃ s : Flate, s = { c with
    predictor, reader := some {}, finished := false } := ⟨_, rfl⟩
  have hbegin : c.beginDecode parms = .quiet s := by
    rw [beginDecode, h, hs]
  have hdecoding : s.IsDecoding := by
    have hfault : (c.beginDecode parms).fault = none := by rw [hbegin, Step.fault_quiet]
    have hstart := isDecoding_beginDecode hfault
    rwa [hbegin] at hstart
  have hdecoded : decoded s = fun data =>
      (({} : Inflate).scan (Bits.ofBytes .lowFirst data)).bind (Predictor.postPass predictor) := by
    funext data
    rw [decoded_of_reading (by rw [hs]) (r := {}) (by rw [hs]), hs]
    refine (Predictor.inStore_quiet _ predictor).trans ?_
    rw [Reader.toCome, List.append_nil]
    exact congrArg (Option.bind · (Predictor.postPass predictor)) Option.map_id'
  have hcomputes := decode_computes hdecoding
  rw [hdecoded] at hcomputes
  refine Codec.makes_of_quiet (s := .flate s) ?_ hcomputes
  rw [Codec.start, Codec.beginDecode, hbegin]
  rfl

theorem decode_makes (c : Flate) {parms : Option DecodeParms} (h : Predictor.IsAbsent parms)
    (ctx : CryptoContext) : (Codec.flate c).Makes .decode ctx parms fun data =>
      ({} : Inflate).scan (Bits.ofBytes .lowFirst data) := by
  intro blocks
  rw [decode_makes_of_parms c (Predictor.ofParms_of_absent h) ctx blocks]
  exact Predictor.bind_postPass_none _

end Flate
end PdfStream
