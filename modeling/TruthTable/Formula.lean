import TruthTable.NodeError
import TruthTable.Tree

/-!
# Formulas

A formula is well formed by construction: negation has one operand, a binary
connective two, and a variadic one a first operand and any number of others.
`compound` builds one from a connective and a list, and refuses the lists that
the connective does not accept.
-/

namespace TruthTable

inductive Formula where
  | atom (symbol : Symbol)
  | not (operand : Formula)
  | binary (op : Binary) (left right : Formula)
  | variadic (op : Variadic) (first : Formula) (rest : List Formula)

namespace Formula

/-- To prove a statement of all formulas, prove it of each from its operands. -/
theorem induction {P : Formula → Prop} (atom : ∀ s, P (atom s)) (not : ∀ f, P f → P (not f))
    (binary : ∀ op l r, P l → P r → P (binary op l r))
    (variadic : ∀ op f fs, P f → (∀ g ∈ fs, P g) → P (variadic op f fs)) (f : Formula) : P f :=
  @Formula.rec P (fun fs => ∀ f ∈ fs, P f) atom not binary variadic (by simp)
    (fun _ _ hf hfs => by simpa using ⟨hf, hfs⟩) f

/-- A compound formula, if the connective accepts that many operands. -/
def compound : Connective → List Formula → Except NodeError Formula
  | .not, [f] => .ok (not f)
  | .binary op, [l, r] => .ok (binary op l r)
  | .variadic op, f :: fs => .ok (variadic op f fs)
  | c, fs => .error (.arityMismatch c.keyword c.arity fs.length)

/-- The outermost connective; an atom has none. -/
def connective? : Formula → Option Connective
  | atom _ => none
  | not _ => some .not
  | binary op _ _ => some (.binary op)
  | variadic op _ _ => some (.variadic op)

/-- The direct operands in order; an atom has none. -/
def operands : Formula → List Formula
  | atom _ => []
  | not f => [f]
  | binary _ l r => [l, r]
  | variadic _ f fs => f :: fs

/-- A symbol, or the negation of one, with the value it asserts. -/
def literal? : Formula → Option (Symbol × Bool)
  | atom s => some (s, true)
  | not (atom s) => some (s, false)
  | _ => none

mutual

/-- The number of nodes. -/
def size : Formula → Nat
  | atom _ => 1
  | not f => 1 + f.size
  | binary _ l r => 1 + l.size + r.size
  | variadic _ f fs => 1 + f.size + sizes fs

def sizes : List Formula → Nat
  | [] => 0
  | f :: fs => f.size + sizes fs

end

/-- One node, and those of the operands. -/
theorem size_eq (f : Formula) : f.size = 1 + sizes f.operands := by
  cases f <;> simp [size, sizes, operands, Nat.add_assoc]

mutual

/-- Prefix notation with lower-case keywords and single spaces. -/
def render : Formula → String
  | atom s => s.name
  | not f => "(" ++ Connective.not.keyword ++ " " ++ f.render ++ ")"
  | binary op l r =>
    "(" ++ (Connective.binary op).keyword ++ " " ++ l.render ++ " " ++ r.render ++ ")"
  | variadic op f fs =>
    "(" ++ (Connective.variadic op).keyword ++ " " ++ f.render ++ renderRest fs ++ ")"

def renderRest : List Formula → String
  | [] => ""
  | f :: fs => " " ++ f.render ++ renderRest fs

end

mutual

/-- The tree that the printed formula spells out. -/
def toTree : Formula → Tree
  | atom s => .leaf s.name
  | not f => .node Connective.not.keyword [f.toTree]
  | binary op l r => .node (Connective.binary op).keyword [l.toTree, r.toTree]
  | variadic op f fs => .node (Connective.variadic op).keyword (f.toTree :: toTrees fs)

def toTrees : List Formula → List Tree
  | [] => []
  | f :: fs => f.toTree :: toTrees fs

end

theorem toTrees_eq_map (fs : List Formula) : toTrees fs = fs.map toTree := by
  induction fs with
  | nil => rfl
  | cons f fs ih => simp [toTrees, ih]

mutual

/-- Append the symbols that are not yet listed, left to right. -/
def collectSymbols : Formula → List Symbol → List Symbol
  | atom s, seen => if s ∈ seen then seen else seen ++ [s]
  | not f, seen => f.collectSymbols seen
  | binary _ l r, seen => r.collectSymbols (l.collectSymbols seen)
  | variadic _ f fs, seen => collectSymbolsAll fs (f.collectSymbols seen)

def collectSymbolsAll : List Formula → List Symbol → List Symbol
  | [], seen => seen
  | f :: fs, seen => collectSymbolsAll fs (f.collectSymbols seen)

end

theorem collectSymbolsAll_eq_foldl (fs : List Formula) (seen : List Symbol) :
    collectSymbolsAll fs seen = fs.foldl (fun seen f => f.collectSymbols seen) seen := by
  induction fs generalizing seen with
  | nil => rfl
  | cons f fs ih => simp [collectSymbolsAll, ih]

/-- The distinct symbols in the order of their first occurrence. -/
def symbols (f : Formula) : List Symbol :=
  f.collectSymbols []

mutual

def decEq : (a b : Formula) → Decidable (a = b)
  | atom a, atom b =>
    if h : a = b then isTrue (h ▸ rfl) else isFalse fun e => h (atom.inj e)
  | not a, not b =>
    match decEq a b with
    | isTrue h => isTrue (h ▸ rfl)
    | isFalse h => isFalse fun e => h (not.inj e)
  | binary o a b, binary p c d =>
    if ho : o = p then
      match decEq a c, decEq b d with
      | isTrue h, isTrue k => isTrue (ho ▸ h ▸ k ▸ rfl)
      | isFalse h, _ => isFalse fun e => h (binary.inj e).2.1
      | _, isFalse k => isFalse fun e => k (binary.inj e).2.2
    else isFalse fun e => ho (binary.inj e).1
  | variadic o a as, variadic p b bs =>
    if ho : o = p then
      match decEq a b, decEqList as bs with
      | isTrue h, isTrue k => isTrue (ho ▸ h ▸ k ▸ rfl)
      | isFalse h, _ => isFalse fun e => h (variadic.inj e).2.1
      | _, isFalse k => isFalse fun e => k (variadic.inj e).2.2
    else isFalse fun e => ho (variadic.inj e).1
  | atom _, not _ => isFalse nofun
  | atom _, binary _ _ _ => isFalse nofun
  | atom _, variadic _ _ _ => isFalse nofun
  | not _, atom _ => isFalse nofun
  | not _, binary _ _ _ => isFalse nofun
  | not _, variadic _ _ _ => isFalse nofun
  | binary _ _ _, atom _ => isFalse nofun
  | binary _ _ _, not _ => isFalse nofun
  | binary _ _ _, variadic _ _ _ => isFalse nofun
  | variadic _ _ _, atom _ => isFalse nofun
  | variadic _ _ _, not _ => isFalse nofun
  | variadic _ _ _, binary _ _ _ => isFalse nofun

def decEqList : (as bs : List Formula) → Decidable (as = bs)
  | [], [] => isTrue rfl
  | a :: as, b :: bs =>
    match decEq a b, decEqList as bs with
    | isTrue h, isTrue k => isTrue (h ▸ k ▸ rfl)
    | isFalse h, _ => isFalse fun e => h (List.cons.inj e).1
    | _, isFalse k => isFalse fun e => k (List.cons.inj e).2
  | [], _ :: _ => isFalse nofun
  | _ :: _, [] => isFalse nofun

end

instance : DecidableEq Formula := decEq

end Formula

end TruthTable
