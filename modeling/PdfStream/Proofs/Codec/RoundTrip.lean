import PdfStream.Proofs.Codec

/-!
Round trips over blocks. If what one session puts out reads back as its data in one go, it does so in
whatever blocks it is brought. Neither session depends on what earlier ones have left in its codec.
-/
namespace PdfStream

/-- If `g` undoes `f`, a session that makes `g` of its data reads back all that a session that makes
`f` puts out. -/
theorem Codec.Makes.readsBack {c c' : Codec} {ctx ctx' : CryptoContext}
    {parms parms' : Option DecodeParms} {f g : Bytes → Option Bytes}
    (hf : c.Makes .encode ctx parms f) (hg : c'.Makes .decode ctx' parms' g)
    (hback : ∀ data, ∃ out, f data = some out ∧ g out = some data) (blocks : List Bytes) :
    ∃ out, (c.session .encode ctx parms blocks).output? = some out ∧
      ∀ blocks' : List Bytes, blocks'.flatten = out →
        (c'.session .decode ctx' parms' blocks').output? = some blocks.flatten := by
  obtain ⟨out, hout, hdata⟩ := hback blocks.flatten
  refine ⟨out, (hf blocks).trans hout, ?_⟩
  intro blocks' hblocks'
  rw [hg blocks', hblocks', hdata]

namespace RunLength

/-- Encoding succeeds in whatever blocks, and decoding what was encoded, in whatever blocks, gives
back the data. -/
theorem session_readsBack (c c' : RunLength) (parms : Option DecodeParms)
    (ctx ctx' : CryptoContext) (blocks : List Bytes) :
    ∃ out, ((Codec.runLength c).session .encode ctx none blocks).output? = some out ∧
      ∀ blocks' : List Bytes, blocks'.flatten = out →
        ((Codec.runLength c').session .decode ctx' parms blocks').output? = some blocks.flatten := by
  apply (c.encode_makes ctx none).readsBack (c'.decode_makes ctx' parms)
  intro data
  exact decoded_encoded _ c.bounded_begun rfl data

end RunLength

namespace Flate

/-- Encoding succeeds at any level and in whatever blocks, and decoding what was encoded, in whatever
blocks and without a predictor, gives back the data. What was encoded is a zlib stream, and any other
stream of the data would do as well. -/
theorem session_isZlib_readsBack (c c' : Flate) {parms : Option DecodeParms}
    (h : Predictor.IsAbsent parms) (ctx ctx' : CryptoContext) (blocks : List Bytes) :
    ∃ out, ((Codec.flate c).session .encode ctx none blocks).output? = some out ∧
      (∀ blocks' : List Bytes, blocks'.flatten = out →
        ((Codec.flate c').session .decode ctx' parms blocks').output? = some blocks.flatten) ∧
      IsZlib blocks.flatten out ∧
      ∀ blocks' : List Bytes, IsZlib blocks.flatten blocks'.flatten →
        ((Codec.flate c').session .decode ctx' parms blocks').output? = some blocks.flatten := by
  have hreads (blocks' : List Bytes) (hzlib : IsZlib blocks.flatten blocks'.flatten) :
      ((Codec.flate c').session .decode ctx' parms blocks').output? = some blocks.flatten := by
    rw [c'.decode_makes h ctx' blocks']
    exact hzlib.delimits.eq_some
  obtain ⟨out, hout, hzlib⟩ := Deflate.encoded_isZlib c.level blocks.flatten
  refine ⟨out, (c.encode_makes ctx none blocks).trans hout, ?_, hzlib, hreads⟩
  rintro blocks' rfl
  exact hreads blocks' hzlib

theorem session_isZlib_readsBack_stored :
    Predictor.IsAbsent (some (.ofList [("Predictor", .int 1)])) ∧
      ∃ out, ((Codec.flate { level := 0 }).session .encode {} none [[7, 7], [], [7]]).output? =
          some out ∧
        (∀ blocks' : List Bytes, blocks'.flatten = out →
          ((Codec.flate {}).session .decode {} (some (.ofList [("Predictor", .int 1)]))
            blocks').output? = some [7, 7, 7]) ∧
        IsZlib [7, 7, 7] out ∧
        ∀ blocks' : List Bytes, IsZlib [7, 7, 7] blocks'.flatten →
          ((Codec.flate {}).session .decode {} (some (.ofList [("Predictor", .int 1)]))
            blocks').output? = some [7, 7, 7] := by
  have habsent : Predictor.IsAbsent (some (.ofList [("Predictor", .int 1)])) := rfl
  exact ⟨habsent, session_isZlib_readsBack { level := 0 } {} habsent {} {} [[7, 7], [], [7]]⟩

end Flate
end PdfStream
