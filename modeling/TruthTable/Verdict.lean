/-!
# Verdicts

What the answers for a statement and for its negation say together.
-/

namespace TruthTable

inductive Verdict where
  | definitelyTrue
  | definitelyFalse
  /-- Neither the statement nor its negation follows. -/
  | unknown
  /-- Both follow, so nothing satisfies the knowledge base. -/
  | inconsistent
deriving DecidableEq

namespace Verdict

def all : List Verdict :=
  [definitelyTrue, definitelyFalse, unknown, inconsistent]

def classify (statementEntailed negationEntailed : Bool) : Verdict :=
  match statementEntailed, negationEntailed with
  | true, false => definitelyTrue
  | false, false => unknown
  | true, true => inconsistent
  | false, true => definitelyFalse

def render : Verdict → String
  | definitelyTrue => "definitely true"
  | definitelyFalse => "definitely false"
  | unknown => "possibly true, possibly false"
  | inconsistent => "both true and false"

def ofText? (text : String) : Option Verdict :=
  all.find? fun v => v.render == text

theorem ofText?_render (v : Verdict) : ofText? v.render = some v := by
  cases v <;> decide

end Verdict

end TruthTable
