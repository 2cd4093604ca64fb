import PdfStream.CommandLine.Item
import PdfStream.Crypto.Algorithm
import PdfStream.FilterKind

/-!
What a command line asks for. Arguments are taken one by one, and the first that does not fit, or
that asks for help, decides.
-/
namespace PdfStream.CommandLine

/-- Runs a stream through filters. -/
structure FilterRequest where
  direction : Direction
  /-- As a document lists them, in decode order. -/
  filters : List String := []
  /-- For the filter listed last. -/
  parms : List String := []
  key : Option String := none
  cipher : Option CipherKind := none
  input : Option String := none
  output : Option String := none
  debug : Bool := false
  deriving DecidableEq, Repr

/-- Prints a digest. -/
structure DigestRequest where
  algorithm : Option DigestKind := none
  input : Option String := none
  debug : Bool := false
  deriving DecidableEq, Repr

inductive Topic where
  | program | encode | decode | digest | help
  deriving DecidableEq, Repr

inductive HelpForm where
  | full | summary
  deriving DecidableEq, Repr

inductive Request where
  | filter (request : FilterRequest)
  | digest (request : DigestRequest)
  | version
  | help (topic : Topic) (form : HelpForm)
  | invalid
  deriving DecidableEq, Repr

/-- Why the arguments of a command are not taken to the end. -/
inductive Stop where
  | help (form : HelpForm)
  | invalid
  deriving DecidableEq, Repr

def Stop.request (topic : Topic) : Stop → Request
  | .help form => .help topic form
  | .invalid => .invalid

/-- Sets what may be given once. -/
def once (old : Option α) (new : α) : Except Stop (Option α) :=
  match old with
  | none => .ok (some new)
  | some _ => .error .invalid

/-- A path is not empty, and given at most once. -/
def oncePath (old : Option String) (path : String) : Except Stop (Option String) :=
  if path = "" then .error .invalid else once old path

def cipherOf (name : String) : Except Stop CipherKind :=
  match name with
  | "rc4" => .ok .rc4
  | "aes128" => .ok .aes128Cbc
  | "aes256" => .ok .aes256Cbc
  | _ => .error .invalid

def digestOf (name : String) : Except Stop DigestKind :=
  match name with
  | "md5" => .ok .md5
  | "sha1" => .ok .sha1
  | "sha256" => .ok .sha256
  | "sha384" => .ok .sha384
  | "sha512" => .ok .sha512
  | _ => .error .invalid

namespace FilterRequest

def parameters : List Parameter :=
  [.filter, .parm, .key, .cipher, .outfile, .debug, .help, .summary]

def take (r : FilterRequest) : Item → Except Stop FilterRequest
  | .value .filter name => .ok { r with filters := r.filters ++ [name] }
  | .value .parm pair => .ok { r with parms := r.parms ++ [pair] }
  | .value .key key => do return { r with key := ← once r.key key }
  | .value .cipher name => do return { r with cipher := ← once r.cipher (← cipherOf name) }
  | .value .outfile path => do return { r with output := ← oncePath r.output path }
  | .operand path => do return { r with input := ← oncePath r.input path }
  | .flag .debug => if r.debug then .error .invalid else .ok { r with debug := true }
  | .flag .help => .error (.help .full)
  | .flag .summary => .error (.help .summary)
  | _ => .error .invalid

/-- At least one filter is named. -/
def ofArguments (direction : Direction) (arguments : List String) : Except Stop FilterRequest := do
  let r ← (readItems parameters none arguments).foldlM take { direction }
  if r.filters = [] then throw .invalid
  return r

end FilterRequest

namespace DigestRequest

def parameters : List Parameter := [.algorithm, .debug, .help, .summary]

def take (r : DigestRequest) : Item → Except Stop DigestRequest
  | .value .algorithm name => do return { r with algorithm := ← once r.algorithm (← digestOf name) }
  | .operand path => do return { r with input := ← oncePath r.input path }
  | .flag .debug => if r.debug then .error .invalid else .ok { r with debug := true }
  | .flag .help => .error (.help .full)
  | .flag .summary => .error (.help .summary)
  | _ => .error .invalid

def ofArguments (arguments : List String) : Except Stop DigestRequest :=
  (readItems parameters none arguments).foldlM take {}

end DigestRequest

namespace Request

def topic? : String → Option Topic
  | "encode" => some .encode
  | "decode" => some .decode
  | "digest" => some .digest
  | "help" => some .help
  | _ => none

/-- Which command the help is about: none, or one of the commands. -/
def ofHelp : List String → Request
  | [] => .help .program .full
  | [name] =>
    match topic? name with
    | some topic => .help topic .full
    | none => .invalid
  | _ => .invalid

def ofCommand (topic : Topic) (arguments : List String) : Request :=
  let filter (direction : Direction) : Request :=
    match FilterRequest.ofArguments direction arguments with
    | .ok r => .filter r
    | .error stop => stop.request topic
  match topic with
  | .encode => filter .encode
  | .decode => filter .decode
  | .digest =>
    match DigestRequest.ofArguments arguments with
    | .ok r => .digest r
    | .error stop => stop.request topic
  | .help => ofHelp arguments
  | .program => .invalid

/-- What stands in front of the command: whether debugging was asked for, or the end. -/
def takeGlobal (debug : Bool) : Item → Except Request Bool
  | .flag .debug => if debug then .error .invalid else .ok true
  | .flag .help => .error (.help .program .full)
  | .flag .summary => .error (.help .program .summary)
  | .flag .version => .error .version
  | _ => .error .invalid

/-- Options of the program, then a command with its own arguments. -/
def ofArgumentsAfter (debug : Bool) : List String → Request
  | [] => .invalid
  | argument :: rest =>
    match topic? argument with
    | some topic => ofCommand topic rest
    | none =>
      if argument = "--" then .invalid
      else
        let items := (readArgument [.debug, .help, .summary, .version] argument).1
        match items.foldlM takeGlobal debug with
        | .ok debug => ofArgumentsAfter debug rest
        | .error request => request

def ofArguments (arguments : List String) : Request := ofArgumentsAfter false arguments

end Request
end PdfStream.CommandLine
