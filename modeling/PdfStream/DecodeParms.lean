import PdfStream.Error
import PdfStream.Text.Blank

/-!
Decode parameters: keys with values, of which a filter looks up the few it knows.
-/
namespace PdfStream

/-- The newest entry of a key is the one that counts. -/
structure DecodeParms where
  newestFirst : List (String × ParamValue) := []
  deriving DecidableEq, Repr

namespace DecodeParms

def empty : DecodeParms := {}

def insert (parms : DecodeParms) (key : String) (value : ParamValue) : DecodeParms :=
  ⟨(key, value) :: parms.newestFirst⟩

def get? (parms : DecodeParms) (key : String) : Option ParamValue :=
  (parms.newestFirst.find? fun entry => entry.1 = key).map Prod.snd

def ofList (entries : List (String × ParamValue)) : DecodeParms :=
  ⟨entries.reverse⟩

def isEmpty (parms : DecodeParms) : Bool := parms.newestFirst.isEmpty

@[simp] theorem get?_empty (key : String) : empty.get? key = none := rfl

theorem get?_insert (parms : DecodeParms) (key key' : String) (value : ParamValue) :
    (parms.insert key value).get? key' = if key = key' then some value else parms.get? key' := by
  by_cases h : key = key' <;> simp [get?, insert, h]

/-- An integer, or a truth value as 0 or 1. -/
def intD (parms : DecodeParms) (key : String) (default : Int) : Except Error Int :=
  match parms.get? key with
  | none => .ok default
  | some (.int i) => .ok i
  | some (.bool b) => .ok (if b then 1 else 0)
  | some value => .error (.configuration (.notAnInteger key value))

def name? (parms : DecodeParms) (key : String) : Except Error (Option String) :=
  match parms.get? key with
  | none => .ok none
  | some (.name n) => .ok (some n)
  | some value => .error (.configuration (.notAName key value))

def dropSlashes (cs : List Char) : List Char := cs.dropWhile (· = '/')

/-- The value that trimmed text stands for: a number, a truth value, or else a name. -/
def valueOf (cs : List Char) : ParamValue :=
  match Decimal.int64? cs with
  | some i => .int i
  | none =>
    if cs = "true".toList then .bool true
    else if cs = "false".toList then .bool false
    else .name (String.ofList (dropSlashes cs))

/-- Reads `Key=Value`, split at the first equals sign. -/
def parsePair (pair : String) : Except Error (String × ParamValue) :=
  let cs := pair.toList
  if '=' ∈ cs then
    let key := dropSlashes (Text.trim (cs.takeWhile (· ≠ '=')))
    let value := (cs.dropWhile (· ≠ '=')).drop 1
    if key = [] then .error (.configuration (.emptyKey pair))
    else .ok (String.ofList key, valueOf (Text.trim value))
  else .error (.configuration (.pairExpected pair))

end DecodeParms
end PdfStream
