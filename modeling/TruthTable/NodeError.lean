import TruthTable.Symbol
import TruthTable.Connective

/-!
# What can be wrong with a node

A name that is no symbol, a name that is no connective, or a connective with a
number of operands that it does not accept.
-/

namespace TruthTable

inductive NodeError where
  | arityMismatch (connective : String) (expected : Arity) (actual : Nat)
  | unknownConnective (name : String)
  | invalidSymbol (name : String)
deriving DecidableEq

namespace NodeError

def message : NodeError → String
  | arityMismatch connective expected actual =>
    "connective \"" ++ connective ++ "\" with " ++ toString actual ++
      " arguments (expects " ++ expected.render ++ ")"
  | unknownConnective name => "unknown connective \"" ++ name ++ "\""
  | invalidSymbol name => "invalid symbol \"" ++ name ++ "\""

/-- Several errors on one line. -/
def messages (errors : List NodeError) : String :=
  "; ".intercalate (errors.map message)

end NodeError

/-- The symbol of a given name, or the error that it is none. -/
def Symbol.named (name : String) : Except NodeError Symbol :=
  match Symbol.ofName? name with
  | some s => .ok s
  | none => .error (.invalidSymbol name)

/-- The connective of a given name, or the error that there is none. -/
def Connective.named (name : String) : Except NodeError Connective :=
  match Connective.ofName? name with
  | some c => .ok c
  | none => .error (.unknownConnective name)

/-- The connective of a given name for a number of operands. Both errors show
the name as it was given. -/
def Connective.namedFor (name : String) (operands : Nat) : Except NodeError Connective :=
  match Connective.named name with
  | .ok c =>
    if c.arity.accepts operands then .ok c else .error (.arityMismatch name c.arity operands)
  | .error e => .error e

end TruthTable
