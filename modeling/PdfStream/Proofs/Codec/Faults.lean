import PdfStream.Proofs.Coder

/-!
What can be wrong with data, parameters or a crypto context. No codec ever complains of a lifecycle:
that is left to the engines and chains around it.
-/
namespace PdfStream

/-- A call out of place, or one that found no sink to work on. -/
def Error.IsRefusal : Error → Prop
  | .usage (.engineCall _ _ _) | .usage (.engineUnbound _) | .usage .chainBegin
  | .usage (.chainCall _ _) | .usage .chainUnbound => True
  | _ => False

/-- An error of a codec, its data, its parameters or its crypto context. -/
def Error.IsOwn (e : Error) : Prop := ¬e.IsRefusal

theorem Error.isOwn_of_isDecode {e : Error} (h : e.IsDecode) : e.IsOwn := by
  obtain ⟨fault, rfl⟩ := h
  exact id

/-- What may be wrong before any data come: parameters, a key, or a context that does not offer the
cipher. -/
def Error.IsSetup : Error → Prop
  | .usage .contextTornDown | .cryptoEngine (.providerDisabled _)
  | .cryptoEngine (.cipherUnavailable _ _) | .configuration (.notAnInteger _ _)
  | .configuration (.notAName _ _) | .configuration (.unsupportedPredictor _)
  | .configuration (.notPositive _) | .configuration (.unsupportedBits _)
  | .configuration (.unsupportedTiffBits _) | .configuration .rowOverflow
  | .configuration (.rowTooLong _ _) | .configuration (.keyLength _ _)
  | .configuration (.unsupportedMethod _) | .configuration (.lengthMismatch _ _) => True
  | _ => False

theorem Error.isOwn_of_isSetup {e : Error} (h : e.IsSetup) : e.IsOwn := by
  intro hrefusal
  unfold IsRefusal at hrefusal
  split at hrefusal
  all_goals first | exact h | exact hrefusal

/-- The result is no other error than one with `P`. -/
def ErrsOnly {α : Type} (P : Error → Prop) (r : Except Error α) : Prop := ∀ e, r = .error e → P e

section
variable {α β : Type} {P : Error → Prop}

theorem errsOnly_ok (a : α) : ErrsOnly P (.ok a) := nofun

theorem errsOnly_error {e : Error} (h : P e) : ErrsOnly P (.error e : Except Error α) := by
  rintro _ ⟨⟩
  exact h

theorem ErrsOnly.bind {r : Except Error α} {f : α → Except Error β} (hr : ErrsOnly P r)
    (hf : ∀ a, ErrsOnly P (f a)) : ErrsOnly P (r >>= f) := by
  cases r with
  | error e => exact errsOnly_error (hr e rfl)
  | ok a => exact hf a

theorem ErrsOnly.map {r : Except Error α} (h : ErrsOnly P r) (f : α → β) :
    ErrsOnly P (r.map f) := by
  cases r with
  | error e => exact errsOnly_error (h e rfl)
  | ok a => exact errsOnly_ok _

end

theorem DecodeParms.errsOnly_intD (parms : DecodeParms) (key : String) (default : Int) :
    ErrsOnly Error.IsSetup (parms.intD key default) := by
  unfold intD
  split
  · exact errsOnly_ok _
  · exact errsOnly_ok _
  · exact errsOnly_ok _
  · exact errsOnly_error trivial

theorem DecodeParms.errsOnly_name? (parms : DecodeParms) (key : String) :
    ErrsOnly Error.IsSetup (parms.name? key) := by
  unfold name?
  split
  · exact errsOnly_ok _
  · exact errsOnly_ok _
  · exact errsOnly_error trivial

namespace Predictor

theorem errsOnly_positive (parms : DecodeParms) (key : String) (default : Int) :
    ErrsOnly Error.IsSetup (positive parms key default) := by
  refine (parms.errsOnly_intD key default).bind fun value => ?_
  split
  · exact errsOnly_ok _
  · exact errsOnly_error trivial

theorem errsOnly_create (scheme : Scheme) (colors bits columns : Nat) :
    ErrsOnly Error.IsSetup (Layout.create scheme colors bits columns) := by
  unfold Layout.create
  dsimp only
  split_ifs
  all_goals first | exact errsOnly_ok _ | exact errsOnly_error trivial

theorem errsOnly_layout? (parms : Option DecodeParms) :
    ErrsOnly Error.IsSetup (layout? parms) := by
  cases parms with
  | none => exact errsOnly_ok _
  | some parms =>
    have hlayout (scheme : Scheme) : ErrsOnly Error.IsSetup (do
        let colors ← positive parms "Colors" 1
        let bits ← positive parms "BitsPerComponent" 8
        let columns ← positive parms "Columns" 1
        return some (← Layout.create scheme colors bits columns)) := by
      refine (errsOnly_positive _ _ _).bind fun colors => ?_
      refine (errsOnly_positive _ _ _).bind fun bits => ?_
      refine (errsOnly_positive _ _ _).bind fun columns => ?_
      exact (errsOnly_create _ _ _ _).bind fun layout => errsOnly_ok _
    refine (parms.errsOnly_intD "Predictor" 1).bind fun predictor => ?_
    split_ifs
    · exact errsOnly_ok _
    · exact hlayout .tiff
    · exact hlayout .png
    · exact errsOnly_error trivial

theorem errsOnly_ofParms (parms : Option DecodeParms) :
    ErrsOnly Error.IsSetup (ofParms parms) := (errsOnly_layout? parms).map _

theorem errsOnly_restore (layout : Layout) (above row : Array UInt8) :
    ErrsOnly Error.IsDecode (restore layout above row) := by
  unfold restore
  split
  · dsimp only
    split
    · exact errsOnly_ok _
    · exact errsOnly_error ⟨_, rfl⟩
  · split
    · exact errsOnly_ok _
    · exact errsOnly_ok _

theorem faultsOnly_push (p : Predictor) (data : Bytes) : (p.push data).FaultsOnly Error.IsDecode := by
  apply Step.FaultsOnly.run
  intro p b
  unfold addByte
  dsimp only
  generalize (if p.pending.size < p.layout.rowSize then p.pending.push b else p.pending) = pending
  split
  · exact .of_no_fault rfl
  · split
    next => exact .of_no_fault rfl
    next e he => exact Step.faultsOnly_stop (errsOnly_restore _ _ _ e he) _

theorem faultsOnly_pass (p : Option Predictor) (data : Bytes) :
    (pass p data).FaultsOnly Error.IsDecode := by
  cases p with
  | none => exact .of_no_fault rfl
  | some p => exact (p.faultsOnly_push data).map some

theorem faultsOnly_passAll {out : Step (Option Predictor)} (h : out.FaultsOnly Error.IsDecode)
    (pieces : List Bytes) : (passAll out pieces).1.FaultsOnly Error.IsDecode := by
  induction pieces generalizing out with
  | nil => exact h
  | cons piece pieces ih =>
    have hfirst := h.andThen fun p => faultsOnly_pass p piece
    rw [passAll]
    split
    · exact hfirst
    · exact ih hfirst

theorem faultsOnly_close (p : Option Predictor) : (close p).FaultsOnly Error.IsDecode := by
  cases p with
  | none => exact .of_no_fault rfl
  | some p => exact .of_no_fault rfl

end Predictor

namespace Lzw.Reader

/-- Only an invalid code and a predictor are faults. -/
theorem faultsOnly_feed (r : Reader) (data : Bytes) (p : Option Predictor) :
    (r.feed data p).FaultsOnly Error.IsDecode := by
  fun_induction Reader.feed r data p with
  | case1 r data p c hvalid out hends => exact (Predictor.faultsOnly_pass p _).map _
  | case2 r data p c hvalid out hends ih =>
    exact ((Predictor.faultsOnly_pass p _).map _).andThen fun s => ih s
  | case3 r data p c hvalid => exact Step.faultsOnly_stop ⟨_, rfl⟩ _

end Lzw.Reader

namespace Flate.Reader

/-- By induction on the bits left: a fill that is not the last leaves fewer. -/
theorem faultsOnly_readOn (r : Reader) (piece : Array UInt8) (data : Bytes)
    {out : Step (Option Predictor)} (h : out.FaultsOnly Error.IsDecode) :
    (readOn r piece data out).FaultsOnly Error.IsDecode := by
  induction hn : r.left data using Nat.strongRecOn generalizing r piece data out with
  | ind n ih =>
    subst hn
    unfold readOn
    dsimp only
    split
    next => exact (h.andThen fun p => Step.faultsOnly_stop ⟨_, rfl⟩ p).map _
    next =>
      split
      next hsmall => exact ih _ (left_lt_of_not_ends hsmall.1) _ _ _ h rfl
      next =>
        have hpassed := Predictor.faultsOnly_passAll h
          (Bytes.chunks pieceLength (piece ++ (r.fill data).bytes.extract 0 (windowLength - r.level)).toList)
        split
        next hgoes => exact ih _ (left_lt_of_not_ends hgoes.1) _ _ _ hpassed rfl
        next => exact hpassed.map _

theorem faultsOnly_feed (r : Reader) (data : Bytes) (p : Option Predictor) :
    (r.feed data p).FaultsOnly Error.IsDecode := by
  have hquiet : (Step.quiet p).FaultsOnly Error.IsDecode := .of_no_fault rfl
  have hwaiting := Predictor.faultsOnly_passAll hquiet r.waiting
  unfold feed
  split
  · exact Step.faultsOnly_stop ⟨_, rfl⟩ _
  · dsimp only
    split
    · exact hwaiting.map _
    · exact faultsOnly_readOn _ _ _ hwaiting

end Flate.Reader

namespace RunLength
variable {P : Error → Prop}

theorem faultsOnly_flushLiteral (c : RunLength) : c.flushLiteral.FaultsOnly P := by
  unfold flushLiteral
  split
  · exact .of_no_fault rfl
  · exact .of_no_fault rfl

theorem faultsOnly_closeRun (c : RunLength) : c.closeRun.FaultsOnly P := by
  unfold closeRun
  split
  · exact .of_no_fault rfl
  · split
    · refine Step.FaultsOnly.andThen ?_ fun _ => .of_no_fault rfl
      split
      · exact c.faultsOnly_flushLiteral
      · exact .of_no_fault rfl
    · exact c.faultsOnly_flushLiteral.andThen fun _ => .of_no_fault rfl

theorem faultsOnly_encodeBlock (c : RunLength) (data : Bytes) :
    (c.encodeBlock data).FaultsOnly P := by
  apply Step.FaultsOnly.run
  intro c b
  unfold addByte
  split
  · split
    · exact .of_no_fault rfl
    · exact c.faultsOnly_closeRun.andThen fun _ => .of_no_fault rfl
  · exact .of_no_fault rfl

theorem faultsOnly_endEncode (c : RunLength) : c.endEncode.FaultsOnly P :=
  (c.faultsOnly_closeRun.andThen faultsOnly_flushLiteral).andThen fun _ => .of_no_fault rfl

theorem faultsOnly_decodeBlock (c : RunLength) (data : Bytes) :
    (c.decodeBlock data).FaultsOnly P := by
  refine Step.FaultsOnly.map (Step.FaultsOnly.andThen (.run ?_ _ _) fun _ => .of_no_fault rfl) _
  intro r b
  unfold readByte
  split
  · exact .of_no_fault rfl
  · exact .of_no_fault rfl
  · dsimp only
    split
    · exact .of_no_fault rfl
    · exact .of_no_fault rfl
  · exact .of_no_fault rfl

theorem faultsOnly_endDecode (c : RunLength) : c.endDecode.FaultsOnly Error.IsDecode := by
  unfold endDecode
  split
  · exact .of_no_fault rfl
  · exact .of_no_fault rfl
  · exact Step.faultsOnly_stop ⟨_, rfl⟩ _
  · exact Step.faultsOnly_stop ⟨_, rfl⟩ _

end RunLength

namespace AsciiHex

theorem faultsOnly_decodeBlock (c : AsciiHex) (data : Bytes) :
    (c.decodeBlock data).FaultsOnly Error.IsDecode := by
  refine Step.FaultsOnly.joined (.run ?_ _ _)
  intro c b
  unfold readByte
  split
  · exact .of_no_fault rfl
  · split
    · split
      · exact .of_no_fault rfl
      · exact .of_no_fault rfl
    · split_ifs
      · exact .of_no_fault rfl
      · exact .of_no_fault rfl
      · exact Step.faultsOnly_stop ⟨_, rfl⟩ _

theorem faultsOnly_endDecode {P : Error → Prop} (c : AsciiHex) : c.endDecode.FaultsOnly P := by
  unfold endDecode
  split
  · exact .of_no_fault rfl
  · exact .of_no_fault rfl

end AsciiHex

namespace Ascii85

theorem faultsOnly_encodeBlock {P : Error → Prop} (c : Ascii85) (data : Bytes) :
    (c.encodeBlock data).FaultsOnly P := by
  refine Step.FaultsOnly.joined (.run ?_ _ _)
  intro c b
  unfold addByte
  dsimp only
  split
  · exact .of_no_fault rfl
  · exact .of_no_fault rfl

theorem faultsOnly_endEncode {P : Error → Prop} (c : Ascii85) : c.endEncode.FaultsOnly P := by
  unfold endEncode
  split
  · exact .of_no_fault rfl
  · exact .of_no_fault rfl

theorem errsOnly_decodeGroup (group : Bytes) : ErrsOnly Error.IsDecode (decodeGroup group) := by
  unfold decodeGroup
  split
  · exact errsOnly_ok _
  · exact errsOnly_error ⟨_, rfl⟩

theorem faultsOnly_pushDigit (c : Ascii85) (d : UInt8) :
    (pushDigit c d).FaultsOnly Error.IsDecode := by
  unfold pushDigit
  dsimp only
  split
  · split
    next => exact .of_no_fault rfl
    next e he => exact Step.faultsOnly_stop (errsOnly_decodeGroup _ e he) _
  · exact .of_no_fault rfl

theorem faultsOnly_closeGroup (c : Ascii85) : (closeGroup c).FaultsOnly Error.IsDecode := by
  unfold closeGroup
  split
  · exact .of_no_fault rfl
  · exact Step.faultsOnly_stop ⟨_, rfl⟩ _
  · split
    next => exact .of_no_fault rfl
    next e he => exact Step.faultsOnly_stop (errsOnly_decodeGroup _ e he) _

theorem faultsOnly_readBody (c : Ascii85) (b : UInt8) :
    (readBody c b).FaultsOnly Error.IsDecode := by
  unfold readBody
  dsimp only
  split_ifs
  · exact .of_no_fault rfl
  · exact .of_no_fault rfl
  · exact .of_no_fault rfl
  · exact .of_no_fault rfl
  · exact Step.faultsOnly_stop ⟨_, rfl⟩ _
  · exact faultsOnly_pushDigit _ _
  · exact Step.faultsOnly_stop ⟨_, rfl⟩ _

theorem faultsOnly_readByte (c : Ascii85) (b : UInt8) :
    (readByte c b).FaultsOnly Error.IsDecode := by
  unfold readByte
  dsimp only
  split
  · exact .of_no_fault rfl
  · split_ifs
    · exact .of_no_fault rfl
    · exact (faultsOnly_pushDigit _ _).andThen fun s => faultsOnly_readBody s b
  · split_ifs
    · exact faultsOnly_closeGroup _
    · exact Step.faultsOnly_stop ⟨_, rfl⟩ _
  · exact faultsOnly_readBody c b
  · exact faultsOnly_readBody c b

theorem faultsOnly_endDecode (c : Ascii85) : (endDecode c).FaultsOnly Error.IsDecode := by
  unfold endDecode
  split
  · exact .of_no_fault rfl
  · exact (faultsOnly_pushDigit _ _).andThen faultsOnly_closeGroup
  · exact faultsOnly_closeGroup _
  · exact faultsOnly_closeGroup _
  · exact faultsOnly_closeGroup _

end Ascii85

namespace Lzw
variable {P : Error → Prop}

theorem Encoder.faultsOnly_feed (e : Encoder) (data : Bytes) : (e.feed data).FaultsOnly P := by
  unfold feed
  split
  · exact .of_no_fault rfl
  · refine Step.FaultsOnly.andThen (.run ?_ _ _) fun _ => .of_no_fault rfl
    intro e b
    unfold addByte
    split
    · exact .of_no_fault rfl
    · exact .of_no_fault rfl

theorem faultsOnly_encodeBlock (c : Lzw) (data : Bytes)
    (h : c.encoder = none → P (.usage (.lzwNotStarted .encode))) :
    (c.encodeBlock data).FaultsOnly P := by
  unfold encodeBlock
  split
  next hnone => exact Step.faultsOnly_stop (h hnone) c
  next encoder _ => exact (encoder.faultsOnly_feed data).map _

theorem faultsOnly_endEncode (c : Lzw)
    (h : c.encoder = none → P (.usage (.lzwNotStarted .encode))) : c.endEncode.FaultsOnly P := by
  unfold endEncode
  split
  next hnone => exact Step.faultsOnly_stop (h hnone) c
  next => exact .of_no_fault rfl

theorem faultsOnly_beginDecode (c : Lzw) (parms : Option DecodeParms) :
    (c.beginDecode parms).FaultsOnly Error.IsSetup := by
  have hsettings : ErrsOnly Error.IsSetup (settings parms) := by
    have hpredictor (early : Int) : ErrsOnly Error.IsSetup
        (do return (decide (early ≠ 0), ← Predictor.ofParms parms)) :=
      (Predictor.errsOnly_ofParms parms).bind fun p => errsOnly_ok _
    cases parms with
    | none => exact hpredictor 1
    | some parms => exact (parms.errsOnly_intD "EarlyChange" 1).bind hpredictor
  unfold beginDecode
  split
  next e he => exact Step.faultsOnly_stop (hsettings e he) _
  next => exact .of_no_fault rfl

theorem faultsOnly_decodeBlock (hdecode : ∀ e : Error, e.IsDecode → P e) (c : Lzw) (data : Bytes)
    (h : c.reader = none → P (.usage (.lzwNotStarted .decode))) :
    (c.decodeBlock data).FaultsOnly P := by
  unfold decodeBlock
  split
  · exact .of_no_fault rfl
  · split
    next hnone => exact Step.faultsOnly_stop (h hnone) c
    next r hr =>
      exact Step.FaultsOnly.andThen (((r.faultsOnly_feed data _).mono hdecode).map _) fun _ =>
        .of_no_fault rfl

theorem faultsOnly_endDecode (hdecode : ∀ e : Error, e.IsDecode → P e) (c : Lzw)
    (h : c.reader = none → P (.usage (.lzwNotStarted .decode))) : c.endDecode.FaultsOnly P := by
  refine (c.faultsOnly_decodeBlock hdecode [] h).andThen fun s => ?_
  dsimp only
  split
  · exact Step.faultsOnly_stop (hdecode _ ⟨_, rfl⟩) _
  · exact ((Predictor.faultsOnly_close _).mono hdecode).map _

end Lzw

namespace Flate
variable {P : Error → Prop}

namespace Deflate

theorem faultsOnly_flushBlock (d : Deflate) (last : Bool) : (d.flushBlock last).FaultsOnly P := by
  refine Step.FaultsOnly.andThen ?_ fun _ => .of_no_fault rfl
  unfold start
  split
  · exact .of_no_fault rfl
  · exact .of_no_fault rfl

theorem faultsOnly_feed (d : Deflate) (data : Bytes) : (d.feed data).FaultsOnly P := by
  have hrun : (Step.run addByte d data).FaultsOnly P := by
    apply Step.FaultsOnly.run
    intro d b
    unfold addByte
    dsimp only
    split
    · exact .of_no_fault rfl
    · exact faultsOnly_flushBlock _ false
  exact hrun

theorem faultsOnly_finish (d : Deflate) : d.finish.FaultsOnly P :=
  (d.faultsOnly_flushBlock true).andThen fun _ => .of_no_fault rfl

end Deflate

theorem faultsOnly_encodeBlock (c : Flate) (data : Bytes)
    (h : c.encoder = none → P (.usage (.flateNotStarted .encode))) :
    (c.encodeBlock data).FaultsOnly P := by
  unfold encodeBlock
  split
  · exact .of_no_fault rfl
  · split
    next hnone => exact Step.faultsOnly_stop (h hnone) c
    next encoder _ => exact (encoder.faultsOnly_feed data).map _

theorem faultsOnly_endEncode (c : Flate)
    (h : c.encoder = none → P (.usage (.flateNotStarted .encode))) : c.endEncode.FaultsOnly P := by
  unfold endEncode
  split
  next hnone => exact Step.faultsOnly_stop (h hnone) c
  next encoder _ => exact encoder.faultsOnly_finish.map _

theorem faultsOnly_beginDecode (c : Flate) (parms : Option DecodeParms) :
    (c.beginDecode parms).FaultsOnly Error.IsSetup := by
  unfold beginDecode
  split
  next e he => exact Step.faultsOnly_stop (Predictor.errsOnly_ofParms parms e he) _
  next => exact .of_no_fault rfl

theorem faultsOnly_decodeBlock (hdecode : ∀ e : Error, e.IsDecode → P e) (c : Flate) (data : Bytes)
    (h : c.reader = none → P (.usage (.flateNotStarted .decode))) :
    (c.decodeBlock data).FaultsOnly P := by
  unfold decodeBlock
  split
  · exact .of_no_fault rfl
  · split
    next hnone => exact Step.faultsOnly_stop (h hnone) c
    next reader _ =>
      refine Step.FaultsOnly.andThen (Step.FaultsOnly.map ?_ _) fun _ => .of_no_fault rfl
      exact (reader.faultsOnly_feed data _).mono hdecode

theorem faultsOnly_endDecode (hdecode : ∀ e : Error, e.IsDecode → P e) (c : Flate)
    (h : c.reader = none → P (.usage (.flateNotStarted .decode))) : c.endDecode.FaultsOnly P := by
  refine (faultsOnly_decodeBlock hdecode c [] h).andThen fun s => ?_
  dsimp only
  split
  · exact Step.faultsOnly_stop (hdecode _ ⟨_, rfl⟩) _
  · exact ((Predictor.faultsOnly_close _).mono hdecode).map _

end Flate

namespace CryptoContext

theorem errsOnly_load (ctx : CryptoContext) : ErrsOnly Error.IsSetup ctx.load.2 := by
  unfold load
  split
  · exact errsOnly_error trivial
  · split
    · exact errsOnly_ok _
    · split
      next e he =>
        have hload (r : Registry) (provider : Provider) (enabled : Bool) :
            ErrsOnly Error.IsSetup (r.load provider enabled) := by
          unfold Registry.load
          split
          · exact errsOnly_ok _
          · exact errsOnly_error trivial
        have hcreate : ErrsOnly Error.IsSetup (Registry.create ctx.options.legacyProvider) :=
          (hload _ _ _).bind fun r => hload r _ _
        exact errsOnly_error (hcreate e he)
      next => exact errsOnly_ok _

theorem errsOnly_selectCipher (ctx : CryptoContext) (kind : CipherKind) :
    ErrsOnly Error.IsSetup (ctx.selectCipher kind).2 := by
  refine ErrsOnly.bind ctx.errsOnly_load fun registry => ?_
  unfold Registry.fetchCipher
  split
  · exact errsOnly_ok _
  · exact errsOnly_error trivial

end CryptoContext

theorem CipherKind.errsOnly_checkKeyLength (kind : CipherKind) (length : Nat) :
    ErrsOnly Error.IsSetup (kind.checkKeyLength length) := by
  unfold checkKeyLength
  split
  · exact errsOnly_ok _
  · exact errsOnly_error trivial

namespace CipherHandle

theorem errsOnly_check (h : CipherHandle) (first : CipherKind) (wanted : List CipherKind)
    (key : Bytes) : ErrsOnly Error.IsOwn (h.check first wanted key) := by
  unfold check
  split
  · exact errsOnly_error id
  · split
    · exact errsOnly_error id
    · exact fun e he => Error.isOwn_of_isSetup (h.kind.errsOnly_checkKeyLength _ e he)

theorem errsOnly_rc4 (h : CipherHandle) (key : Bytes) : ErrsOnly Error.IsOwn (h.rc4 key) := by
  refine (h.errsOnly_check _ _ key).bind fun _ => ?_
  unfold Rc4.ofKey
  split
  · exact errsOnly_error id
  · exact errsOnly_ok _

theorem errsOnly_checkLengths (key iv : Bytes) : ErrsOnly Error.IsOwn (Cbc.checkLengths key iv) := by
  unfold Cbc.checkLengths
  split
  · exact errsOnly_error id
  · split
    · exact errsOnly_error id
    · exact errsOnly_ok _

theorem errsOnly_cbcEncryptor (h : CipherHandle) (key iv : Bytes) :
    ErrsOnly Error.IsOwn (h.cbcEncryptor key iv) :=
  (h.errsOnly_check _ _ key).bind fun _ => (errsOnly_checkLengths key iv).bind fun _ => errsOnly_ok _

theorem errsOnly_cbcDecryptor (h : CipherHandle) (key iv : Bytes) :
    ErrsOnly Error.IsOwn (h.cbcDecryptor key iv) :=
  (h.errsOnly_check _ _ key).bind fun _ => (errsOnly_checkLengths key iv).bind fun _ => errsOnly_ok _

end CipherHandle

theorem Cbc.Encryptor.faultsOnly_update {P : Error → Prop} (e : Encryptor) (data : Bytes) :
    (e.update data).FaultsOnly P := by
  refine Step.FaultsOnly.joined (.run ?_ _ _)
  intro e b
  unfold addByte
  dsimp only
  split
  · exact .of_no_fault rfl
  · exact .of_no_fault rfl

namespace Crypt

theorem faultsOnly_notStarted (c : Crypt) (direction : Direction) :
    (c.notStarted direction).FaultsOnly Error.IsOwn := Step.faultsOnly_stop id c

theorem errsOnly_resolve (c : Crypt) (cipher : CipherKind) (ctx : CryptoContext) :
    ErrsOnly Error.IsSetup (c.resolve cipher ctx).2 := by
  unfold resolve
  split
  next e he => exact errsOnly_error (cipher.errsOnly_checkKeyLength _ e he)
  next => exact ctx.errsOnly_selectCipher cipher

theorem errsOnly_decodeCipher (c : Crypt) (parms : Option DecodeParms) :
    ErrsOnly Error.IsSetup (c.decodeCipher parms) := by
  have hlength (parms : DecodeParms) (cipher : CipherKind) : ErrsOnly Error.IsSetup (do
      if (parms.get? "Length").isSome then
        let length ← parms.intD "Length" 0
        if lengthInBytes length ≠ c.key.length then
          throw (.configuration (.lengthMismatch length c.key.length))
      return cipher) := by
    split
    · refine (parms.errsOnly_intD "Length" 0).bind fun length => ?_
      split
      · exact errsOnly_error trivial
      · exact errsOnly_ok _
    · exact errsOnly_ok _
  cases parms with
  | none => exact errsOnly_ok _
  | some parms =>
    refine (parms.errsOnly_name? "CFM").bind fun method => ?_
    cases method with
    | none => exact hlength parms c.cipher
    | some method =>
      refine ErrsOnly.bind ?_ (hlength parms)
      unfold CipherKind.ofMethod
      split
      · exact errsOnly_ok _
      · exact errsOnly_error trivial

theorem faultsOnly_beginEncode (c : Crypt) (ctx : CryptoContext) :
    (c.beginEncode ctx).2.FaultsOnly Error.IsOwn := by
  have hresolve := errsOnly_resolve { c with session := .idle } c.cipher ctx
  unfold beginEncode
  revert hresolve
  dsimp only
  rcases resolve { c with session := .idle } c.cipher ctx with ⟨ctx', e | handle⟩
  · exact fun hresolve => Step.faultsOnly_stop (Error.isOwn_of_isSetup (hresolve e rfl)) _
  · intro _
    dsimp only
    unfold openEncode
    split
    · split
      next => exact .of_no_fault rfl
      next e he => exact Step.faultsOnly_stop (handle.errsOnly_rc4 _ e he) _
    all_goals
      dsimp only
      split
      next => exact .of_no_fault rfl
      next e he => exact Step.faultsOnly_stop (handle.errsOnly_cbcEncryptor _ _ e he) _

theorem faultsOnly_encodeBlock (c : Crypt) (data : Bytes) :
    (c.encodeBlock data).FaultsOnly Error.IsOwn := by
  unfold encodeBlock
  split
  · exact .of_no_fault rfl
  next encryptor _ => exact (encryptor.faultsOnly_update data).map _
  · exact c.faultsOnly_notStarted .encode

theorem faultsOnly_endEncode (c : Crypt) : c.endEncode.FaultsOnly Error.IsOwn := by
  unfold endEncode
  dsimp only
  split
  · exact .of_no_fault rfl
  · exact .of_no_fault rfl
  · exact faultsOnly_notStarted _ .encode

theorem faultsOnly_beginDecode (c : Crypt) (parms : Option DecodeParms) (ctx : CryptoContext) :
    (c.beginDecode parms ctx).2.FaultsOnly Error.IsOwn := by
  unfold beginDecode
  dsimp only
  split
  next e he =>
    exact Step.faultsOnly_stop (Error.isOwn_of_isSetup (errsOnly_decodeCipher _ parms e he)) _
  next cipher _ =>
    have hresolve := errsOnly_resolve { c with session := .idle } cipher ctx
    revert hresolve
    rcases resolve { c with session := .idle } cipher ctx with ⟨ctx', e | handle⟩
    · exact fun hresolve => Step.faultsOnly_stop (Error.isOwn_of_isSetup (hresolve e rfl)) _
    · intro _
      dsimp only
      unfold openDecode
      split
      · split
        next => exact .of_no_fault rfl
        next e he => exact Step.faultsOnly_stop (handle.errsOnly_rc4 _ e he) _
      · exact .of_no_fault rfl
      · exact .of_no_fault rfl

theorem faultsOnly_decodeWith (c : Crypt) (decryptor : Cbc.Decryptor) (data : Bytes) :
    (c.decodeWith decryptor data).FaultsOnly Error.IsOwn := by
  refine Step.FaultsOnly.map (Step.FaultsOnly.joined (.run ?_ _ _)) _
  intro d b
  unfold Cbc.Decryptor.addByte
  split
  · exact .of_no_fault rfl
  · exact .of_no_fault rfl

theorem errsOnly_decryptor (c : Crypt) (iv : Bytes) : ErrsOnly Error.IsOwn (c.decryptor iv) := by
  unfold decryptor
  split
  next handle _ => exact handle.errsOnly_cbcDecryptor c.key iv
  next => exact errsOnly_error id

theorem faultsOnly_decodeBlock (c : Crypt) (data : Bytes) :
    (c.decodeBlock data).FaultsOnly Error.IsOwn := by
  unfold decodeBlock
  split
  · exact .of_no_fault rfl
  · dsimp only
    split
    · exact .of_no_fault rfl
    · split
      next e he => exact Step.faultsOnly_stop (c.errsOnly_decryptor _ e he) _
      next => exact c.faultsOnly_decodeWith _ _
  · exact c.faultsOnly_decodeWith _ _
  · exact c.faultsOnly_notStarted .decode

theorem errsOnly_unpad (data : Bytes) : ErrsOnly Error.IsOwn (Padding.unpad data) := by
  unfold Padding.unpad
  split
  · exact errsOnly_error id
  · dsimp only
    split_ifs
    · exact errsOnly_error id
    · exact errsOnly_error id
    · exact errsOnly_ok _

theorem faultsOnly_endDecode (c : Crypt) : c.endDecode.FaultsOnly Error.IsOwn := by
  unfold endDecode
  dsimp only
  split
  · exact .of_no_fault rfl
  · exact Step.faultsOnly_stop id _
  · refine Step.FaultsOnly.map ?_ _
    unfold Cbc.Decryptor.finish
    split
    · exact Step.faultsOnly_stop id _
    · dsimp only
      split
      next => exact .of_no_fault rfl
      next e he => exact Step.faultsOnly_stop (errsOnly_unpad _ e he) _
  · exact faultsOnly_notStarted _ .decode

end Crypt

namespace Codec

theorem faultsOnly_start (c : Codec) (direction : Direction) (ctx : CryptoContext)
    (parms : Option DecodeParms) : (c.start direction ctx parms).2.FaultsOnly Error.IsOwn := by
  cases direction with
  | encode =>
    cases c with
    | crypt c => exact (c.faultsOnly_beginEncode ctx).map _
    | runLength | lzw | ascii85 | asciiHex | flate => exact .of_no_fault rfl
  | decode =>
    cases c with
    | lzw c => exact ((c.faultsOnly_beginDecode parms).mono fun _ => Error.isOwn_of_isSetup).map _
    | flate c =>
      exact ((c.faultsOnly_beginDecode parms).mono fun _ => Error.isOwn_of_isSetup).map _
    | crypt c => exact (c.faultsOnly_beginDecode parms ctx).map _
    | runLength | ascii85 | asciiHex => exact .of_no_fault rfl

theorem faultsOnly_block (c : Codec) (direction : Direction) (data : Bytes) :
    (c.block direction data).FaultsOnly Error.IsOwn := by
  cases direction with
  | encode =>
    cases c with
    | runLength c => exact (c.faultsOnly_encodeBlock data).map _
    | lzw c => exact (c.faultsOnly_encodeBlock data fun _ => id).map _
    | ascii85 c => exact (c.faultsOnly_encodeBlock data).map _
    | asciiHex c => exact .of_no_fault rfl
    | flate c => exact (c.faultsOnly_encodeBlock data fun _ => id).map _
    | crypt c => exact (c.faultsOnly_encodeBlock data).map _
  | decode =>
    have hdecode (e : Error) : e.IsDecode → e.IsOwn := Error.isOwn_of_isDecode
    cases c with
    | runLength c => exact (c.faultsOnly_decodeBlock data).map _
    | lzw c => exact (Lzw.faultsOnly_decodeBlock hdecode c data fun _ => id).map _
    | ascii85 c =>
      have hread := Step.FaultsOnly.run Ascii85.faultsOnly_readByte c data
      exact (hread.mono hdecode).map _
    | asciiHex c => exact ((c.faultsOnly_decodeBlock data).mono hdecode).map _
    | flate c => exact (Flate.faultsOnly_decodeBlock hdecode c data fun _ => id).map _
    | crypt c => exact (c.faultsOnly_decodeBlock data).map _

theorem faultsOnly_finish (c : Codec) (direction : Direction) :
    (c.finish direction).FaultsOnly Error.IsOwn := by
  cases direction with
  | encode =>
    cases c with
    | runLength c => exact c.faultsOnly_endEncode.map _
    | lzw c => exact (c.faultsOnly_endEncode fun _ => id).map _
    | ascii85 c => exact c.faultsOnly_endEncode.map _
    | asciiHex c => exact .of_no_fault rfl
    | flate c => exact (c.faultsOnly_endEncode fun _ => id).map _
    | crypt c => exact c.faultsOnly_endEncode.map _
  | decode =>
    have hdecode (e : Error) : e.IsDecode → e.IsOwn := Error.isOwn_of_isDecode
    cases c with
    | runLength c => exact (c.faultsOnly_endDecode.mono hdecode).map _
    | lzw c => exact (Lzw.faultsOnly_endDecode hdecode c fun _ => id).map _
    | ascii85 c => exact (c.faultsOnly_endDecode.mono hdecode).map _
    | asciiHex c => exact c.faultsOnly_endDecode.map _
    | flate c => exact (Flate.faultsOnly_endDecode hdecode c fun _ => id).map _
    | crypt c => exact c.faultsOnly_endDecode.map _

end Codec
end PdfStream
