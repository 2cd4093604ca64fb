import PdfStream.Text.Unprintable

/-!
Text between quotation marks, with the characters that could mislead a reader escaped.
-/
namespace PdfStream.Text

/-- A code point in lowercase hexadecimal between braces. -/
def codePoint (c : Char) : List Char :=
  "\\u\x7b".toList ++ Nat.toDigits 16 c.toNat ++ "\x7d".toList

/-- How `c` is written between two `mark`s. -/
def escape (mark c : Char) : List Char :=
  if c = '\x00' then ['\\', '0']
  else if c = '\t' then ['\\', 't']
  else if c = '\r' then ['\\', 'r']
  else if c = '\n' then ['\\', 'n']
  else if c = '\\' ∨ c = mark then ['\\', c]
  else if isUnprintable c then codePoint c
  else [c]

def quoteWith (mark : Char) (cs : List Char) : String :=
  String.ofList ([mark] ++ cs.flatMap (escape mark) ++ [mark])

/-- In double quotes. -/
def quote (text : String) : String :=
  quoteWith '"' text.toList

/-- One character in single quotes. -/
def quoteChar (c : Char) : String :=
  quoteWith '\'' [c]

end PdfStream.Text
