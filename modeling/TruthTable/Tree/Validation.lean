import TruthTable.Formula

/-!
# From trees to formulas

Validation turns a tree into the formula it denotes, or lists what is wrong
with it: the error of a node comes before the errors of its arguments, and the
arguments of a faulty node are looked at all the same.
-/

namespace TruthTable

namespace Tree

/-- The errors of a node, followed by those of its arguments; with no error
among them, the formula. -/
def assemble (connective : Except NodeError Connective)
    (operands : Except (List NodeError) (List Formula)) : Except (List NodeError) Formula :=
  match connective, operands with
  | .ok c, .ok fs =>
    match Formula.compound c fs with
    | .ok f => .ok f
    | .error e => .error [e]
  | .error e, .ok _ => .error [e]
  | .ok _, .error es => .error es
  | .error e, .error es => .error (e :: es)

mutual

def validate : Tree → Except (List NodeError) Formula
  | leaf name =>
    match Symbol.named name with
    | .ok s => .ok (.atom s)
    | .error e => .error [e]
  | node head args => assemble (Connective.namedFor head args.length) (validateArgs args)

/-- All formulas, or all errors. -/
def validateArgs : List Tree → Except (List NodeError) (List Formula)
  | [] => .ok []
  | t :: ts =>
    match t.validate, validateArgs ts with
    | .ok f, .ok fs => .ok (f :: fs)
    | .error es, .ok _ => .error es
    | .ok _, .error es => .error es
    | .error es, .error es' => .error (es ++ es')

end

/-- Whether a head names a connective that accepts a number of arguments. -/
def headAccepts (head : String) (count : Nat) : Bool :=
  match Connective.ofName? head with
  | some c => c.arity.accepts count
  | none => false

mutual

/-- Whether a tree denotes a formula. -/
def isValid : Tree → Bool
  | leaf name => isWord name
  | node head args => headAccepts head args.length && areValid args

def areValid : List Tree → Bool
  | [] => true
  | t :: ts => t.isValid && areValid ts

end

end Tree

end TruthTable
