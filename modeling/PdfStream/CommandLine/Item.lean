/-!
Command-line arguments as items: options by their long or short names, their values, and operands. A
value follows as the next argument, after an equals sign, or directly after a short name.
-/
namespace PdfStream.CommandLine

inductive Parameter where
  | filter | parm | key | cipher | outfile | algorithm | debug | version
  /-- Help in full, and in short. -/
  | help | summary
  deriving DecidableEq, Repr

namespace Parameter

def long? : Parameter → Option String
  | .filter => some "filter"
  | .parm => some "parm"
  | .key => some "key"
  | .cipher => some "cipher"
  | .outfile => some "outfile"
  | .algorithm => some "algorithm"
  | .debug => some "debug"
  | .help => some "help"
  | .version => some "version"
  | .summary => none

def short? : Parameter → Option Char
  | .filter => some 'f'
  | .parm => some 'p'
  | .outfile => some 'o'
  | .algorithm => some 'a'
  | .debug => some 'd'
  | .summary => some 'h'
  | .version => some 'V'
  | .key | .cipher | .help => none

def takesValue : Parameter → Bool
  | .debug | .help | .summary | .version => false
  | _ => true

end Parameter

inductive Item where
  | flag (parameter : Parameter)
  | value (parameter : Parameter) (text : String)
  | operand (text : String)
  /-- Nothing the command knows. -/
  | unknown
  deriving DecidableEq, Repr

/-- Items so far, and the option that still waits for its value. -/
abbrev Reading := List Item × Option Parameter

/-- A dash and something more; a dash alone is an operand. -/
def looksLikeOption : List Char → Bool
  | '-' :: _ :: _ => true
  | _ => false

/-- `name` or `name=value`, after two dashes. -/
def readLong (known : List Parameter) (cs : List Char) : Reading :=
  let name := String.ofList (cs.takeWhile (· ≠ '='))
  match known.find? (·.long? = some name), cs.dropWhile (· ≠ '=') with
  | none, _ => ([.unknown], none)
  | some p, [] => if p.takesValue then ([], some p) else ([.flag p], none)
  | some p, _ :: value =>
    if p.takesValue then ([.value p (String.ofList value)], none) else ([.unknown], none)

/-- Short names in a row, after one dash. The first that takes a value takes the rest. -/
def readShort (known : List Parameter) : List Char → Reading
  | [] => ([], none)
  | c :: cs =>
    match known.find? (·.short? = some c) with
    | none => ([.unknown], none)
    | some p =>
      if p.takesValue then
        match cs with
        | [] => ([], some p)
        | '=' :: value => ([.value p (String.ofList value)], none)
        | value => ([.value p (String.ofList value)], none)
      else
        let (items, waiting) := readShort known cs
        (.flag p :: items, waiting)

def readArgument (known : List Parameter) (argument : String) : Reading :=
  match argument.toList with
  | '-' :: '-' :: name => readLong known name
  | '-' :: c :: cs => readShort known (c :: cs)
  | _ => ([.operand argument], none)

/-- All items of a command. After two dashes come only operands. -/
def readItems (known : List Parameter) : Option Parameter → List String → List Item
  | none, [] => []
  | some _, [] => [.unknown]
  | some p, argument :: rest =>
    if looksLikeOption argument.toList then [.unknown]
    else .value p argument :: readItems known none rest
  | none, argument :: rest =>
    if argument = "--" then rest.map .operand
    else
      let (items, waiting) := readArgument known argument
      items ++ readItems known waiting rest

end PdfStream.CommandLine
