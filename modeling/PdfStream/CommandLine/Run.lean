import PdfStream.Chain
import PdfStream.CommandLine.Help

/-!
Running a request. The input goes through the chain in blocks, and what has been written before a
failure stays written.
-/
namespace PdfStream.CommandLine

/-- What is behind a path that can be opened. A directory can be opened, but not read. -/
inductive Source where
  | content (bytes : Bytes)
  | unreadable (reason : String)
  deriving DecidableEq, Repr

/-- What a run finds around it. A file that cannot be opened or made comes with the reason. -/
structure Host where
  stdin : Bytes := []
  file : String → Except String Source
  create : String → Except String Unit
  entropy : Entropy := {}

inductive Failure where
  | library (error : Error)
  | badParm (pair : String) (cause : Error)
  | unknownFilter (name : String) (cause : Error)
  | keyMissing
  | keyNotHex (cause : Hex.Fault)
  | inputNotOpened (path reason : String)
  | inputNotRead (reason : String)
  | outputNotCreated (path reason : String)
  deriving DecidableEq, Repr

def keyFault : Hex.Fault → String
  | .oddLength => "Odd number of digits"
  | .invalidDigit b position =>
    s!"Invalid character {Text.quoteChar (Char.ofNat b.toNat)} at position {position}"

namespace Failure

def message : Failure → String
  | .library error => error.message
  | .badParm pair _ => s!"bad --parm {Text.quote pair}"
  | .unknownFilter name _ => s!"unknown filter {name}"
  | .keyMissing => "the Crypt filter needs --key"
  | .keyNotHex _ => "--key must be hex"
  | .inputNotOpened path _ => s!"failed to open {path}"
  | .inputNotRead _ => "failed to read input"
  | .outputNotCreated path _ => s!"failed to create output file {path}"

def cause? : Failure → Option String
  | .library _ | .keyMissing => none
  | .badParm _ cause | .unknownFilter _ cause => some cause.message
  | .keyNotHex cause => some (keyFault cause)
  | .inputNotOpened _ reason | .inputNotRead reason | .outputNotCreated _ reason => some reason

/-- Every line of the cause stands four columns in. -/
def report (f : Failure) : String :=
  let cause := match f.cause? with
    | some text => "\nCaused by:\n    " ++ "\n    ".intercalate (text.splitOn "\n") ++ "\n"
    | none => ""
  "Error: " ++ f.message ++ "\n" ++ cause

end Failure

structure Outcome where
  code : Nat := 0
  stdout : Bytes := []
  stderr : String := ""
  /-- The output file, if one was made. -/
  created : Option (String × Bytes) := none
  deriving DecidableEq, Repr

namespace Outcome

def failed (f : Failure) : Outcome := { code := 1, stderr := f.report }

def printed (text : String) : Outcome := { stdout := text.toUTF8.toList }

end Outcome

/-- The file meant, unless it is a standard stream. -/
def filePath (path : Option String) : Option String := path.filter (· ≠ "-")

def Host.input (host : Host) (path : Option String) : Except Failure Source :=
  match filePath path with
  | none => .ok (.content host.stdin)
  | some path => (host.file path).mapError (.inputNotOpened path)

def Host.output (host : Host) (path : Option String) : Except Failure Unit :=
  match filePath path with
  | none => .ok ()
  | some path => (host.create path).mapError (.outputNotCreated path)

/-- What is read at a time. -/
def blockSize : Nat := 64 * 1024

namespace FilterRequest

def decodeParms (r : FilterRequest) : Except Failure (Option DecodeParms) :=
  if r.parms = [] then .ok none
  else do
    let entries ← r.parms.mapM fun pair =>
      (DecodeParms.parsePair pair).mapError (.badParm pair)
    return some (.ofList entries)

def cryptCodec (r : FilterRequest) : Except Failure Codec :=
  match r.key with
  | none => .error .keyMissing
  | some text => do
    let key ← (Hex.decode text.toUTF8.toList).mapError .keyNotHex
    return .crypt { cipher := r.cipher.getD .aes128Cbc, key }

def codec (r : FilterRequest) (name : String) : Except Failure Codec := do
  match ← (FilterKind.ofName name).mapError (.unknownFilter name) with
  | .crypt => r.cryptCodec
  | kind => (Codec.ofKind kind).mapError .library

/-- The filters from the last listed to the first; the one listed last gets the parameters. -/
def chain (r : FilterRequest) : Except Failure Chain := do
  let parms ← r.decodeParms
  let codecs ← r.filters.reverse.mapM r.codec
  return (codecs.foldl (fun (c, parms) codec => (c.push codec parms, none))
    (({} : Chain), parms)).1

/-- Feeds the blocks one by one and ends the session. -/
def feed (direction : Direction) (c : Chain) : List Bytes → Reply
  | [] => (c.finish direction).2
  | block :: blocks =>
    match c.block direction block with
    | (c, .done) => feed direction c blocks
    | (_, reply) => reply

/-- What a session has put out, and why it failed. -/
def settle (reply : Reply) : Bytes × Option Failure :=
  ((reply.sink?.map Sink.content).getD [], reply.error?.map .library)

/-- A whole session over the input. -/
def pass (direction : Direction) (c : Chain) (source : Source) (ctx : CryptoContext) :
    Bytes × Option Failure :=
  match c.start direction .buffer ctx with
  | (_, c, .done) =>
    match source with
    | .content input => settle (feed direction c (Bytes.chunks blockSize input))
    | .unreadable reason => ((settle c.fail.2).1, some (.inputNotRead reason))
  | (_, _, reply) => settle reply

/-- Making the output file empties it, also if it is the input. -/
def run (r : FilterRequest) (host : Host) : Outcome :=
  let opened : Except Failure (Chain × Source) := do
    let c ← r.chain
    let source ← host.input r.input
    host.output r.output
    let same := (filePath r.output).isSome && filePath r.input = filePath r.output
    return (c, if same then .content [] else source)
  match opened with
  | .error f => .failed f
  | .ok (c, source) =>
    let (written, failure) := pass r.direction c source { entropy := host.entropy }
    let outcome : Outcome := (failure.map .failed).getD {}
    match filePath r.output with
    | none => { outcome with stdout := written }
    | some path => { outcome with created := some (path, written) }

end FilterRequest

def DigestRequest.run (r : DigestRequest) (host : Host) : Outcome :=
  let hashed : Except Failure Bytes := do
    match ← host.input r.input with
    | .unreadable reason => throw (.inputNotRead reason)
    | .content data =>
      let kind := r.algorithm.getD .sha256
      ((({} : CryptoContext).computeKind kind data).2).mapError .library
  match hashed with
  | .error f => .failed f
  | .ok digest => { stdout := Hex.lower digest ++ [0x0A] }

def Request.run (host : Host) : Request → Outcome
  | .filter r => r.run host
  | .digest r => r.run host
  | .version => .printed versionLine
  | .help topic form => .printed (topic.text form)
  | .invalid =>
    { code := 2
      stderr := "error: invalid arguments\n\nFor more information, try '--help'.\n" }

end PdfStream.CommandLine
