/-!
The six stream filters, their PDF names, and the two directions a filter runs in.
-/
namespace PdfStream

inductive FilterKind where
  | runLength | lzw | ascii85 | asciiHex | flate | crypt
  deriving DecidableEq, Repr

inductive Direction where
  | encode | decode
  deriving DecidableEq, Repr

namespace FilterKind

def all : List FilterKind := [.runLength, .lzw, .ascii85, .asciiHex, .flate, .crypt]

/-- The PDF name, without its slash. -/
def name : FilterKind → String
  | .runLength => "RunLengthDecode"
  | .lzw => "LZWDecode"
  | .ascii85 => "ASCII85Decode"
  | .asciiHex => "ASCIIHexDecode"
  | .flate => "FlateDecode"
  | .crypt => "Crypt"

/-- The short name allowed in inline images. -/
def abbreviation : FilterKind → Option String
  | .runLength => some "RL"
  | .lzw => some "LZW"
  | .ascii85 => some "A85"
  | .asciiHex => some "AHx"
  | .flate => some "Fl"
  | .crypt => none

/-- One leading slash belongs to the notation of names, not to the name. -/
def bareName (text : String) : String :=
  match text.toList with
  | '/' :: rest => String.ofList rest
  | _ => text

/-- The filter with this full or short name. -/
def find? (bare : String) : Option FilterKind :=
  all.find? fun kind => kind.name == bare || kind.abbreviation == some bare

@[simp] theorem find?_name (kind : FilterKind) : find? kind.name = some kind := by
  cases kind <;> decide

end FilterKind
end PdfStream
