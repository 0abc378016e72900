import TruthTable.Formula.Evaluation
import TruthTable.Plan

/-!
# Entailment by enumeration

A checker branches on one symbol at a time, true before false, and asks at each
complete model whether the target holds wherever the knowledge base does. It
counts the complete models that it visits.
-/

namespace TruthTable

structure Checker where
  kb : Formula
  target : Formula
  shortCircuit : Bool

/-- The answer of a search and the number of complete models visited up to its
end. The number is taken to stay below `2 ^ 64`, so that a 64-bit word holds it;
the search never looks at it. -/
structure Outcome where
  result : Except Incomplete Bool
  visited : Nat

namespace Checker

/-- The answer at a complete model: a model that violates the knowledge base
says nothing against the target. -/
def leaf (c : Checker) (m : Model) : Except Incomplete Bool :=
  match c.kb.evaluateComplete m with
  | .error e => .error e
  | .ok true => c.target.evaluateComplete m
  | .ok false => .ok true

/-- Whether the target holds wherever the knowledge base does, over all ways to
bind the remaining symbols on top of a model. A model counts as visited before
it is looked at. -/
def check (c : Checker) : List Symbol → Model → Nat → Outcome
  | [], m, visited => ⟨c.leaf m, visited + 1⟩
  | s :: rest, m, visited =>
    let whenTrue := c.check rest (m.insert s true) visited
    match whenTrue.result with
    | .error _ => whenTrue
    | .ok true => c.check rest (m.insert s false) whenTrue.visited
    | .ok false =>
      if c.shortCircuit then whenTrue
      else
        let whenFalse := c.check rest (m.insert s false) whenTrue.visited
        ⟨whenFalse.result.map fun _ => false, whenFalse.visited⟩

end Checker

namespace Formula

/-- Whether a target follows from a knowledge base once the remaining symbols
are bound both ways on top of a model. -/
def entailsOver (kb target : Formula) (remaining : List Symbol) (m : Model) :
    Except Incomplete Bool :=
  (Checker.check ⟨kb, target, true⟩ remaining m 0).result

/-- Whether a statement follows from a knowledge base. -/
def entails (kb statement : Formula) : Except Incomplete Bool :=
  let plan := Plan.make kb statement {}
  kb.entailsOver statement plan.free plan.forced

end Formula

end TruthTable
