import PdfStream.Text.Quoted

/-!
Values of decode parameters.
-/
namespace PdfStream

inductive ParamValue where
  | int (value : Int)
  | bool (value : Bool)
  | name (value : String)
  deriving DecidableEq, Repr

/-- The value with its kind, as error texts show it. -/
def ParamValue.describe : ParamValue → String
  | .int i => s!"Int({i})"
  | .bool b => if b then "Bool(true)" else "Bool(false)"
  | .name n => s!"Name({Text.quote n})"

end PdfStream
