import TruthTable.Tree.Reader
import TruthTable.Tree.Validation

/-!
# Reading a formula

A text holds a formula if it can be read as a tree and the tree is valid.
-/

namespace TruthTable

/-- Why a text holds no formula. -/
inductive FormulaError where
  | notReadable (error : ReadError)
  | notValid (errors : List NodeError)
deriving DecidableEq

namespace FormulaError

def message : FormulaError → String
  | notReadable error => "parse error: " ++ error.message
  | notValid errors => "invalid expression: " ++ NodeError.messages errors

end FormulaError

namespace Formula

def read (text : String) : Except FormulaError Formula :=
  match Tree.read text with
  | .error e => .error (.notReadable e)
  | .ok t =>
    match t.validate with
    | .error es => .error (.notValid es)
    | .ok f => .ok f

end Formula

end TruthTable
