import TruthTable.Formula
import TruthTable.Model
import TruthTable.Settings

/-!
# What is enumerated

A plan splits the symbols of a knowledge base and a statement into those whose
value is forced and those that are tried both ways.
-/

namespace TruthTable

/-- The literals that stand as operands of an outermost conjunction, each with
the value it asserts. When a symbol is stated both ways the later literal wins;
no assignment satisfies the formula then. -/
def Formula.forced : Formula → Model
  | .variadic .and f fs => Model.ofList ((f :: fs).filterMap Formula.literal?)
  | _ => Model.empty

structure Plan where
  forced : Model
  free : List Symbol
deriving DecidableEq

namespace Plan

/-- The free symbols are those of the knowledge base and then those of the
statement, without the forced ones. -/
def make (kb statement : Formula) (settings : Settings) : Plan :=
  let forced := if settings.literalForcing then kb.forced else Model.empty
  let free := (statement.collectSymbols kb.symbols).filter fun s => !forced.contains s
  ⟨forced, free⟩

/-- The largest number that fits in 128 bits. -/
def maxCount : Nat :=
  1 <<< 128 - 1

/-- The announced number of models, a 128-bit word. One bit is shifted left by
the number of free symbols, itself taken as a 32-bit word, and a bit that would
be shifted out gives the largest word instead. -/
def modelCount (p : Plan) : Nat :=
  let shift := p.free.length.toUInt32
  if shift < 128 then 1 <<< shift.toNat else maxCount

end Plan

end TruthTable
