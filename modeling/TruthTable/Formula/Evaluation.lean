import TruthTable.Formula
import TruthTable.Model

/-!
# Truth values

`holds` is the value under a total assignment. `evaluate` is the value under a
model, which may leave symbols unbound: every operand is looked at, from left to
right, and the first unbound symbol is the error even where the operands before
it decide the value.
-/

namespace TruthTable

/-- A symbol that the model at hand does not bind. -/
structure Unbound where
  symbol : Symbol
deriving DecidableEq

def Unbound.message (u : Unbound) : String :=
  "symbol `" ++ u.symbol.name ++ "` has no binding in the model"

/-- A model that was taken to be complete leaves a symbol unbound. -/
structure Incomplete where
  symbol : Symbol
  model : Model
deriving DecidableEq

def Incomplete.message (i : Incomplete) : String :=
  (Unbound.mk i.symbol).message ++ " (model: " ++ i.model.render ++ ")"

namespace Formula

mutual

def holds (v : Symbol → Bool) : Formula → Bool
  | atom s => v s
  | not f => !f.holds v
  | binary op l r => op.apply (l.holds v) (r.holds v)
  | variadic op f fs => op.apply (f.holds v :: holdsEach v fs)

def holdsEach (v : Symbol → Bool) : List Formula → List Bool
  | [] => []
  | f :: fs => f.holds v :: holdsEach v fs

end

theorem holdsEach_eq_map (v : Symbol → Bool) (fs : List Formula) :
    holdsEach v fs = fs.map (holds v) := by
  induction fs with
  | nil => rfl
  | cons f fs ih => simp [holdsEach, ih]

mutual

def evaluate (m : Model) : Formula → Except Unbound Bool
  | atom s =>
    match m.value? s with
    | some b => .ok b
    | none => .error ⟨s⟩
  | not f => (f.evaluate m).map (!·)
  | binary op l r => do
    let a ← l.evaluate m
    let b ← r.evaluate m
    return op.apply a b
  | variadic op f fs => do
    let a ← f.evaluate m
    evaluateRest m op (op.combine op.unit a) fs

/-- Combine the values of the remaining operands with what is known so far. -/
def evaluateRest (m : Model) (op : Variadic) (acc : Bool) : List Formula → Except Unbound Bool
  | [] => .ok acc
  | f :: fs => do
    let b ← f.evaluate m
    evaluateRest m op (op.combine acc b) fs

end

/-- The value under a model that should bind every symbol. -/
def evaluateComplete (f : Formula) (m : Model) : Except Incomplete Bool :=
  match f.evaluate m with
  | .ok b => .ok b
  | .error u => .error ⟨u.symbol, m⟩

/-- The column of the truth table: the value in every row, the first symbol
varying slowest and true before false. -/
def column (f : Formula) : List Bool :=
  (Model.completions f.symbols .empty).map fun m => f.holds m.assignment

end Formula

end TruthTable
