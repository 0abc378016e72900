import TruthTable.Association
import TruthTable.Symbol

/-!
# Models

A model binds finitely many symbols to truth values and remembers the order in
which they were first bound. Binding a symbol again replaces its value and
keeps its place. The view of a model is `value?`.
-/

namespace TruthTable

def boolText (b : Bool) : String :=
  if b then "true" else "false"

structure Model where
  bindings : List (Symbol × Bool)
  nodup : (bindings.map Prod.fst).Nodup
deriving DecidableEq

namespace Model

def empty : Model :=
  ⟨[], List.nodup_nil⟩

/-- The model with one binding more, or with one value replaced. -/
def insert (m : Model) (s : Symbol) (b : Bool) : Model :=
  ⟨Association.put s b m.bindings, Association.nodup_keys_put s b m.nodup⟩

/-- Bind from left to right. -/
def ofList (pairs : List (Symbol × Bool)) : Model :=
  pairs.foldl (fun m p => m.insert p.1 p.2) empty

/-- The value of a symbol, if it is bound. -/
def value? (m : Model) (s : Symbol) : Option Bool :=
  m.bindings.lookup s

@[simp]
theorem value?_empty (s : Symbol) : empty.value? s = none := rfl

/-- A binding gives its symbol its value and leaves all others alone. -/
@[simp]
theorem value?_insert (m : Model) (s t : Symbol) (b : Bool) :
    (m.insert s b).value? t = if t = s then some b else m.value? t :=
  Association.lookup_put s t b m.bindings

def contains (m : Model) (s : Symbol) : Bool :=
  (m.value? s).isSome

def symbols (m : Model) : List Symbol :=
  m.bindings.map Prod.fst

/-- A symbol that is bound again keeps its place; a new one comes last. -/
theorem symbols_insert (m : Model) (s : Symbol) (b : Bool) :
    (m.insert s b).symbols = if s ∈ m.symbols then m.symbols else m.symbols ++ [s] :=
  Association.keys_put s b m.bindings

def size (m : Model) : Nat :=
  m.bindings.length

/-- Whether two models bind the same symbols to the same values, in whatever
order. -/
def agrees (m n : Model) : Bool :=
  m.size == n.size && m.bindings.all fun p => n.value? p.1 == some p.2

def render (m : Model) : String :=
  "\x7b" ++ ", ".intercalate (m.bindings.map fun p => p.1.name ++ "=" ++ boolText p.2) ++ "\x7d"

/-- The total assignment in which every unbound symbol is false. -/
def assignment (m : Model) (s : Symbol) : Bool :=
  m.value? s == some true

/-- All ways to bind the given symbols on top of a model. The first symbol
varies slowest, and true comes before false. -/
def completions : List Symbol → Model → List Model
  | [], m => [m]
  | s :: rest, m => completions rest (m.insert s true) ++ completions rest (m.insert s false)

end Model

end TruthTable
