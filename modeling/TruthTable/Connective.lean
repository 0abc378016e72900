/-!
# Connectives

Three kinds of connective: negation, the two that join a left and a right side,
and the three that gather any positive number of operands. Each kind fixes how
many operands are accepted, and each connective has one lower-case keyword that
is recognised in any ASCII case.
-/

namespace TruthTable

/-- How many operands are accepted. -/
inductive Arity where
  | exactly (count : Nat)
  | atLeast (count : Nat)
deriving DecidableEq

namespace Arity

def accepts : Arity → Nat → Bool
  | exactly n, count => count == n
  | atLeast n, count => n ≤ count

def render : Arity → String
  | exactly n => "exactly " ++ toString n
  | atLeast n => "at least " ++ toString n

end Arity

/-- The connectives with a left and a right operand. -/
inductive Binary where
  | implies
  | iff
deriving DecidableEq

namespace Binary

/-- The truth function: an implication fails only from true to false, a
biconditional is equality. -/
def apply : Binary → Bool → Bool → Bool
  | implies, a, b => !a || b
  | iff, a, b => a == b

end Binary

/-- The connectives with one or more operands. -/
inductive Variadic where
  | and
  | or
  | xor
deriving DecidableEq

namespace Variadic

/-- The value of the connective before any operand is seen. -/
def unit : Variadic → Bool
  | and => true
  | or => false
  | xor => false

/-- The value after one more operand. -/
def combine : Variadic → Bool → Bool → Bool
  | and, acc, b => acc && b
  | or, acc, b => acc || b
  | xor, acc, b => acc ^^ b

/-- The truth function on all operands: all of them, some of them, or an odd
number of them are true. -/
def apply : Variadic → List Bool → Bool
  | and, values => values.all id
  | or, values => values.any id
  | xor, values => values.count true % 2 == 1

theorem foldl_combine_and (acc : Bool) (values : List Bool) :
    values.foldl (combine and) acc = (acc && values.all id) := by
  induction values generalizing acc with
  | nil => simp
  | cons b bs ih => simp [ih, combine, Bool.and_assoc]

theorem foldl_combine_or (acc : Bool) (values : List Bool) :
    values.foldl (combine or) acc = (acc || values.any id) := by
  induction values generalizing acc with
  | nil => simp
  | cons b bs ih => simp [ih, combine, Bool.or_assoc]

theorem foldl_combine_xor (acc : Bool) (values : List Bool) :
    values.foldl (combine xor) acc = (acc ^^ (values.count true % 2 == 1)) := by
  induction values generalizing acc with
  | nil => simp
  | cons b bs ih =>
    cases b with
    | false => simp [ih, combine]
    | true =>
      rw [List.foldl_cons, ih, List.count_cons_self]
      rcases Nat.mod_two_eq_zero_or_one (bs.count true) with h | h <;>
        cases acc <;> simp [combine, Nat.add_mod, h]

/-- Operand by operand, a connective comes to its truth function. -/
theorem foldl_combine (op : Variadic) (values : List Bool) :
    values.foldl op.combine op.unit = op.apply values := by
  cases op
  · simp [unit, apply, foldl_combine_and]
  · simp [unit, apply, foldl_combine_or]
  · simp [unit, apply, foldl_combine_xor]

end Variadic

/-- A connective of any kind. -/
inductive Connective where
  | not
  | binary (op : Binary)
  | variadic (op : Variadic)
deriving DecidableEq

namespace Connective

/-- The word a connective is printed as. -/
def keyword : Connective → String
  | variadic .and => "and"
  | variadic .or => "or"
  | variadic .xor => "xor"
  | not => "not"
  | binary .implies => "if"
  | binary .iff => "iff"

def arity : Connective → Arity
  | not => .exactly 1
  | binary _ => .exactly 2
  | variadic _ => .atLeast 1

def all : List Connective :=
  [variadic .and, variadic .or, variadic .xor, not, binary .implies, binary .iff]

/-- A connective by its exact keyword. -/
def ofKeyword? (word : String) : Option Connective :=
  all.find? fun c => c.keyword == word

/-- A name with its ASCII capitals replaced by small letters. -/
def lowerCase (name : String) : String :=
  String.ofList (name.toList.map Char.toLower)

/-- A connective by its name, in any ASCII case. -/
def ofName? (name : String) : Option Connective :=
  ofKeyword? (lowerCase name)

theorem ofKeyword?_keyword (c : Connective) : ofKeyword? c.keyword = some c := by
  rcases c with _ | (_ | _) | (_ | _ | _) <;> decide

theorem ofName?_keyword (c : Connective) : ofName? c.keyword = some c := by
  rcases c with _ | (_ | _) | (_ | _ | _) <;> decide

theorem keyword_of_ofKeyword? {word : String} {c : Connective} (h : ofKeyword? word = some c) :
    c.keyword = word := by
  simpa using List.find?_some h

end Connective

end TruthTable
