import PdfStream.CommandLine.Request

/-!
What the program says about itself. A page lists entries in sections; in short, an entry takes one
line and its text stands in a column; in full, its text stands below it in paragraphs.
-/
namespace PdfStream.CommandLine

def versionLine : String := "pdffilter 0.4.0\n"

structure HelpEntry where
  label : String
  short : String
  /-- Paragraphs of lines; those of the short text if there are none. -/
  paragraphs : List (List String) := []
  deriving DecidableEq, Repr

namespace HelpEntry

def blanks (n : Nat) : String := String.ofList (List.replicate n ' ')

/-- The label filled up to `width`, then the text. -/
def line (width : Nat) (e : HelpEntry) : String :=
  "  " ++ e.label ++ blanks (width - e.label.length) ++ "  " ++ e.short ++ "\n"

/-- The label, and below it the text ten columns in. -/
def block (e : HelpEntry) : String :=
  let paragraphs := if e.paragraphs = [] then [[e.short]] else e.paragraphs
  "  " ++ e.label ++ "\n" ++
    "\n".intercalate (paragraphs.map fun lines =>
      String.join (lines.map fun text => blanks 10 ++ text ++ "\n"))

end HelpEntry

structure HelpSection where
  title : String
  entries : List HelpEntry
  deriving DecidableEq, Repr

namespace HelpSection

def text (form : HelpForm) (s : HelpSection) : String :=
  s.title ++ ":\n" ++
    match form with
    | .summary =>
      let width := (s.entries.map (·.label.length)).foldl max 0
      String.join (s.entries.map (·.line width))
    | .full => "\n".intercalate (s.entries.map HelpEntry.block)

end HelpSection

structure HelpPage where
  about : String
  usage : String
  sections : List HelpSection
  deriving DecidableEq, Repr

namespace HelpPage

def text (form : HelpForm) (p : HelpPage) : String :=
  p.about ++ "\n\nUsage: pdffilter " ++ p.usage ++ "\n\n" ++
    "\n".intercalate (p.sections.map (·.text form))

end HelpPage

def debugEntry : HelpEntry := { label := "-d, --debug", short := "Use debug logging level" }

def inputEntry : HelpEntry :=
  { label := "[INPUT]", short := "Input file (stdin if omitted or \"-\")" }

def helpEntry (text : String) : HelpEntry := { label := "-h, --help", short := text }

def encodeAbout : String := "Encode a stream through the named filters"

def decodeAbout : String := "Decode a stream through the named filters"

def digestAbout : String := "Print the hex digest of a file"

def helpAbout : String := "Print this message or the help of the given subcommand(s)"

def programPage : HelpPage where
  about := "Command line tool for running PDF stream filters"
  usage := "[OPTIONS] <COMMAND>"
  sections := [
    ⟨"Commands", [⟨"encode", encodeAbout, []⟩, ⟨"decode", decodeAbout, []⟩,
      ⟨"digest", digestAbout, []⟩, ⟨"help", helpAbout, []⟩]⟩,
    ⟨"Options", [debugEntry, helpEntry "Print help", ⟨"-V, --version", "Print version", []⟩]⟩]

def cipherEntry : HelpEntry where
  label := "    --cipher <CIPHER>"
  short := "Cipher for a Crypt filter [default: aes128] [possible values: rc4, aes128, aes256]"
  paragraphs := [
    ["Cipher for a Crypt filter"],
    ["Possible values:", "- rc4:    RC4 (/CFM /V2)", "- aes128: AES-128-CBC (/CFM /AESV2)",
      "- aes256: AES-256-CBC (/CFM /AESV3)", "", "[default: aes128]"]]

def filterPage (form : HelpForm) (about command : String) : HelpPage where
  about := about
  usage := command ++ " [OPTIONS] --filter <FILTERS> [INPUT]"
  sections := [
    ⟨"Arguments", [inputEntry]⟩,
    ⟨"Options", [debugEntry,
      ⟨"-f, --filter <FILTERS>", "Filter names in /Filter array order (e.g. FlateDecode, A85)",
        []⟩,
      ⟨"-p, --parm <PARMS>", "Decode parameter for the last filter listed, as Key=Value", []⟩,
      ⟨"    --key <KEY>", "Hex key for a Crypt filter", []⟩,
      cipherEntry,
      ⟨"-o, --outfile <OUTFILE>", "Output file (stdout if omitted or \"-\")", []⟩,
      helpEntry (match form with
        | .summary => "Print help (see more with '--help')"
        | .full => "Print help (see a summary with '-h')")]⟩]

def digestPage : HelpPage where
  about := digestAbout
  usage := "digest [OPTIONS] [INPUT]"
  sections := [
    ⟨"Arguments", [inputEntry]⟩,
    ⟨"Options", [
      ⟨"-a, --algorithm <ALGORITHM>",
        "[default: sha256] [possible values: md5, sha1, sha256, sha384, sha512]", []⟩,
      debugEntry, helpEntry "Print help"]⟩]

def helpPage : HelpPage where
  about := helpAbout
  usage := "help [COMMAND]..."
  sections := [
    ⟨"Arguments", [⟨"[COMMAND]...", "Print help for the subcommand(s)", []⟩]⟩]

/-- The help on a topic. Only the filter commands have more to say in full. -/
def Topic.text (form : HelpForm) : Topic → String
  | .program => programPage.text .summary
  | .encode => (filterPage form encodeAbout "encode").text form
  | .decode => (filterPage form decodeAbout "decode").text form
  | .digest => digestPage.text .summary
  | .help => helpPage.text .summary

end PdfStream.CommandLine
