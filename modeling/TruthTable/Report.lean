import TruthTable.Checker
import TruthTable.Verdict

/-!
# Checking a statement

The statement and its negation are checked against the knowledge base with one
plan, and the two answers decide the verdict.
-/

namespace TruthTable

structure Report where
  verdict : Verdict
  statementEntailed : Bool
  negationEntailed : Bool
  plan : Plan
  /-- Complete models visited by both checks together, taken to be fewer than
  `2 ^ 64`. -/
  modelsChecked : Nat
deriving DecidableEq

namespace Report

def make (kb statement : Formula) (settings : Settings) : Except Incomplete Report := do
  let plan := Plan.make kb statement settings
  let asserted := Checker.check ⟨kb, statement, settings.shortCircuit⟩ plan.free plan.forced 0
  let negated := Checker.check ⟨kb, .not statement, settings.shortCircuit⟩ plan.free plan.forced 0
  let statementEntailed ← asserted.result
  let negationEntailed ← negated.result
  return ⟨.classify statementEntailed negationEntailed, statementEntailed, negationEntailed, plan,
    asserted.visited + negated.visited⟩

end Report

end TruthTable
