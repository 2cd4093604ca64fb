import PdfStream.Proofs.Codec

/-!
Decoding with a predictor. The LZW and Flate decoders hand bytes on in pieces that follow neither the
blocks of the data nor the rows of the predictor. What comes out in the end is what the predictor
makes, in one piece, of what the same data decode to without it.
-/
namespace PdfStream

namespace DecodeParms

/-- The parameters with no entry for this key. -/
def without (parms : DecodeParms) (key : String) : DecodeParms :=
  ⟨parms.newestFirst.filter fun entry => entry.1 ≠ key⟩

theorem get?_without_self (parms : DecodeParms) (key : String) :
    (parms.without key).get? key = none := by
  simp [get?, without, List.find?_eq_none]

theorem get?_without_of_ne (parms : DecodeParms) {key key' : String} (h : key' ≠ key) :
    (parms.without key).get? key' = parms.get? key' := by
  simp only [get?, without, List.find?_filter]
  congr 2
  funext entry
  by_cases hentry : entry.1 = key'
  · simp [hentry, h]
  · simp [hentry]

end DecodeParms

/-- A session that cannot begin puts out nothing. -/
theorem Codec.output?_session_of_fault {c : Codec} {direction : Direction} {ctx : CryptoContext}
    {parms : Option DecodeParms} {e : Error} (h : (c.start direction ctx parms).2.fault = some e)
    (blocks : List Bytes) : (c.session direction ctx parms blocks).output? = none := by
  rw [session, Step.output?_andThen, Step.output?_of_fault h]
  rfl

namespace Predictor

/-- The same parameters, except that they ask for no predictor. -/
def unasked (parms : Option DecodeParms) : Option DecodeParms :=
  parms.map (·.without "Predictor")

theorem isAbsent_unasked (parms : Option DecodeParms) : IsAbsent (unasked parms) := by
  cases parms with
  | none => trivial
  | some parms =>
    show (parms.without "Predictor").intD "Predictor" 1 = .ok 1
    simp [DecodeParms.intD, DecodeParms.get?_without_self]

/-- Any other predictor than 1 has a layout, or none that is possible. -/
theorem layout?_ne_none {parms : DecodeParms} (h : ¬IsAbsent (some parms)) :
    layout? (some parms) ≠ .ok none := by
  intro hlayout
  cases hint : parms.intD "Predictor" 1 with
  | error e => simp [layout?, hint, bind, Except.bind] at hlayout
  | ok n =>
    have hone : n ≠ 1 := by
      rintro rfl
      exact h hint
    simp only [layout?, hint, bind, Except.bind, hone, if_false] at hlayout
    -- each way on ends with a parameter that is refused, or with a layout
    repeat' split at hlayout
    all_goals cases hlayout

theorem isAbsent_iff {parms : Option DecodeParms} : IsAbsent parms ↔ ofParms parms = .ok none := by
  constructor
  · exact ofParms_of_absent
  intro h
  by_contra habsent
  cases parms with
  | none => exact habsent trivial
  | some parms =>
    have hlayout := layout?_ne_none habsent
    unfold ofParms at h
    rcases hl : layout? (some parms) with e | layout <;> rw [hl] at h hlayout
    · cases h
    · cases layout with
      | none => exact hlayout rfl
      | some layout => cases h

/-- One predictor, fed all of the data in a single push and then finished, makes `out` of them. If the
parameters ask for none, the data stay as they are. -/
def OnePush (parms : Option DecodeParms) (data out : Bytes) : Prop :=
  IsAbsent parms ∧ out = data ∨
    ∃ p, ofParms parms = .ok (some p) ∧ ((p.push data).andThen finish).output? = some out

theorem onePush_iff {parms : Option DecodeParms} {p : Option Predictor}
    (h : ofParms parms = .ok p) {data out : Bytes} :
    OnePush parms data out ↔ postPass p data = some out := by
  rw [OnePush, isAbsent_iff, h]
  cases p with
  | none => simp [postPass, eq_comm]
  | some p => simp [postPass]

theorem not_onePush {parms : Option DecodeParms} {e : Error} (h : ofParms parms = .error e)
    (data out : Bytes) : ¬OnePush parms data out := by
  rintro (⟨habsent, -⟩ | ⟨p, hp, -⟩)
  · rw [ofParms_of_absent habsent] at h
    cases h
  · rw [hp] at h
    cases h

/-- What a decoder makes of the data with a predictor behind it, told by what it makes of them with
none. -/
theorem output?_iff_onePush {parms : Option DecodeParms} {p : Option Predictor}
    (h : ofParms parms = .ok p) {asked plain : Codec} {ctx ctx' : CryptoContext}
    {blocks : List Bytes} {rest : Option Bytes}
    (hasked : asked.MakesOf .decode ctx parms blocks.flatten (rest.bind (postPass p)))
    (hplain : plain.MakesOf .decode ctx' (unasked parms) blocks.flatten
      (rest.bind (postPass none)))
    (out : Bytes) : (asked.session .decode ctx parms blocks).output? = some out ↔
      ∃ z, (plain.session .decode ctx' (unasked parms) [blocks.flatten]).output? = some z ∧
        OnePush parms z out := by
  have hone := hplain [blocks.flatten] List.flatten_singleton
  rw [bind_postPass_none] at hone
  rw [hasked blocks rfl, hone, Option.bind_eq_some_iff]
  simp only [onePush_iff h]

end Predictor

namespace Lzw

/-- The early-change setting that parameters name. -/
def early? (parms : Option DecodeParms) : Except Error Bool :=
  match parms with
  | none => .ok true
  | some parms => (parms.intD "EarlyChange" 1).map fun n => n ≠ 0

theorem settings_eq (parms : Option DecodeParms) : settings parms =
    (early? parms).bind fun early => (Predictor.ofParms parms).map (early, ·) := by
  cases parms with
  | none => rfl
  | some parms =>
    simp only [settings, early?]
    cases parms.intD "EarlyChange" 1 with
    | error e => rfl
    | ok n => cases Predictor.ofParms (some parms) <;> rfl

theorem early?_unasked (parms : Option DecodeParms) :
    early? (Predictor.unasked parms) = early? parms := by
  cases parms with
  | none => rfl
  | some parms =>
    have hget : (parms.without "Predictor").get? "EarlyChange" = parms.get? "EarlyChange" :=
      parms.get?_without_of_ne (by decide)
    simp [early?, Predictor.unasked, DecodeParms.intD, hget]

theorem output?_session_of_settings {c : Lzw} {parms : Option DecodeParms} {e : Error}
    (h : settings parms = .error e) (ctx : CryptoContext) (blocks : List Bytes) :
    ((Codec.lzw c).session .decode ctx parms blocks).output? = none := by
  apply Codec.output?_session_of_fault (e := e)
  simp [Codec.start, Codec.beginDecode, beginDecode, h]

theorem session_decode_iff_onePush (c c' : Lzw) (parms : Option DecodeParms)
    (ctx ctx' : CryptoContext) {blocks : List Bytes} (hcalm : IsCalmData parms blocks.flatten)
    (out : Bytes) : ((Codec.lzw c).session .decode ctx parms blocks).output? = some out ↔
      ∃ z, ((Codec.lzw c').session .decode ctx' (Predictor.unasked parms)
          [blocks.flatten]).output? = some z ∧
        Predictor.OnePush parms z out := by
  have hsettings := settings_eq parms
  have hunasked := settings_eq (Predictor.unasked parms)
  rw [early?_unasked, Predictor.ofParms_of_absent (Predictor.isAbsent_unasked parms)] at hunasked
  cases hearly : early? parms with
  | error e =>
    rw [hearly] at hsettings hunasked
    simp [output?_session_of_settings hsettings, output?_session_of_settings hunasked]
  | ok early =>
    rw [hearly] at hsettings hunasked
    cases hp : Predictor.ofParms parms with
    | error e =>
      rw [hp] at hsettings
      simp [output?_session_of_settings hsettings, Predictor.not_onePush hp]
    | ok p =>
      rw [hp] at hsettings
      have hcalm' : IsCalmData (Predictor.unasked parms) blocks.flatten := by
        intro early' predictor hsettings'
        rw [hunasked] at hsettings'
        cases hsettings'
        exact hcalm early p hsettings
      exact Predictor.output?_iff_onePush hp (decode_makesOf_of_settings c hsettings ctx hcalm)
        (decode_makesOf_of_settings c' hunasked ctx' hcalm') out

end Lzw

namespace Flate

theorem session_decode_iff_onePush (c c' : Flate) (parms : Option DecodeParms)
    (ctx ctx' : CryptoContext) (blocks : List Bytes) (out : Bytes) :
    ((Codec.flate c).session .decode ctx parms blocks).output? = some out ↔
      ∃ z, ((Codec.flate c').session .decode ctx' (Predictor.unasked parms)
          [blocks.flatten]).output? = some z ∧
        Predictor.OnePush parms z out := by
  cases hp : Predictor.ofParms parms with
  | error e =>
    have hfault : ((Codec.flate c).start .decode ctx parms).2.fault = some e := by
      simp [Codec.start, Codec.beginDecode, beginDecode, hp]
    simp [Codec.output?_session_of_fault hfault, Predictor.not_onePush hp]
  | ok p =>
    have hunasked := Predictor.ofParms_of_absent (Predictor.isAbsent_unasked parms)
    exact Predictor.output?_iff_onePush hp ((decode_makes_of_parms c hp ctx).of _)
      ((decode_makes_of_parms c' hunasked ctx').of _) out

end Flate

/-- Decoding of Flate data and of calm LZW data succeeds in whatever blocks exactly if decoding in one
block without the predictor does, and the predictor then makes the output of all that came out
there. -/
theorem session_decode_iff_postPass (parms : Option DecodeParms) (ctx ctx' : CryptoContext)
    (blocks : List Bytes) (out : Bytes) :
    (Lzw.IsCalmData parms blocks.flatten → ∀ c c' : Lzw,
      ((Codec.lzw c).session .decode ctx parms blocks).output? = some out ↔
        ∃ z, ((Codec.lzw c').session .decode ctx' (Predictor.unasked parms)
            [blocks.flatten]).output? = some z ∧
          Predictor.OnePush parms z out) ∧
    ∀ c c' : Flate, ((Codec.flate c).session .decode ctx parms blocks).output? = some out ↔
      ∃ z, ((Codec.flate c').session .decode ctx' (Predictor.unasked parms)
          [blocks.flatten]).output? = some z ∧
        Predictor.OnePush parms z out := by
  constructor
  · intro hcalm c c'
    exact c.session_decode_iff_onePush c' parms ctx ctx' hcalm out
  · intro c c'
    exact c.session_decode_iff_onePush c' parms ctx ctx' blocks out

theorem session_decode_iff_postPass_calm :
    Lzw.IsCalmData none [0x80, 0x10, 0x48, 0x50, 0x10] ∧
      ((Codec.lzw {}).session .decode {} none [[0x80, 0x10], [0x48, 0x50, 0x10]]).output? =
        some [0x41, 0x42] ∧
      ∃ z, ((Codec.lzw {}).session .decode {} none
          [[0x80, 0x10, 0x48, 0x50, 0x10]]).output? = some z ∧
        Predictor.OnePush none z [0x41, 0x42] := by
  have hcalm : Lzw.IsCalmData none [0x80, 0x10, 0x48, 0x50, 0x10] := by decide +kernel
  have hdecoded : ((Codec.lzw {}).session .decode {} none
      [[0x80, 0x10], [0x48, 0x50, 0x10]]).output? = some [0x41, 0x42] := by decide +kernel
  have hiff := session_decode_iff_postPass none {} {} [[0x80, 0x10], [0x48, 0x50, 0x10]]
    [0x41, 0x42]
  exact ⟨hcalm, hdecoded, (hiff.1 hcalm {} {}).1 hdecoded⟩

/-- The same word with a clear code between its letters: it decodes in two blocks and not in one. -/
theorem session_decode_in_two_blocks :
    ((Codec.lzw {}).session .decode {} none
        [[0x80, 0x10, 0x60], [0x04, 0x28, 0x08]]).output? = some [0x41, 0x42] ∧
      ¬∃ z, ((Codec.lzw {}).session .decode {} none
          [[0x80, 0x10, 0x60, 0x04, 0x28, 0x08]]).output? = some z ∧
        Predictor.OnePush none z [0x41, 0x42] := by
  have hcut : ((Codec.lzw {}).session .decode {} none
      [[0x80, 0x10, 0x60, 0x04, 0x28, 0x08]]).output? = none := by decide +kernel
  refine ⟨by decide +kernel, ?_⟩
  rintro ⟨z, hz, -⟩
  rw [hcut] at hz
  cases hz

end PdfStream
