/-!
# Unvalidated trees

A tree is what prefix notation spells out: a bare word, or a head word with
arguments. Neither the head nor the number of arguments is checked here, and
names are kept as they were written.
-/

namespace TruthTable

inductive Tree where
  | leaf (name : String)
  | node (head : String) (args : List Tree)

namespace Tree

/-- To prove a statement of all trees, prove it of a node from its arguments. -/
theorem induction {P : Tree → Prop} (leaf : ∀ name, P (leaf name))
    (node : ∀ head args, (∀ t ∈ args, P t) → P (node head args)) (t : Tree) : P t :=
  @Tree.rec P (fun ts => ∀ t ∈ ts, P t) leaf node (by simp)
    (fun _ _ ht hts => by simpa using ⟨ht, hts⟩) t

mutual

/-- Prefix notation with single spaces. -/
def render : Tree → String
  | leaf name => name
  | node head args => "(" ++ head ++ renderArgs args ++ ")"

/-- Each argument after a space. -/
def renderArgs : List Tree → String
  | [] => ""
  | t :: ts => " " ++ t.render ++ renderArgs ts

end

mutual

def decEq : (a b : Tree) → Decidable (a = b)
  | leaf a, leaf b =>
    if h : a = b then isTrue (h ▸ rfl) else isFalse fun e => h (leaf.inj e)
  | node h as, node k bs =>
    if hk : h = k then
      match decEqArgs as bs with
      | isTrue e => isTrue (hk ▸ e ▸ rfl)
      | isFalse ne => isFalse fun e => ne (node.inj e).2
    else isFalse fun e => hk (node.inj e).1
  | leaf _, node _ _ => isFalse nofun
  | node _ _, leaf _ => isFalse nofun

def decEqArgs : (as bs : List Tree) → Decidable (as = bs)
  | [], [] => isTrue rfl
  | a :: as, b :: bs =>
    match decEq a b, decEqArgs as bs with
    | isTrue h, isTrue hs => isTrue (h ▸ hs ▸ rfl)
    | isFalse h, _ => isFalse fun e => h (List.cons.inj e).1
    | _, isFalse hs => isFalse fun e => hs (List.cons.inj e).2
  | [], _ :: _ => isFalse nofun
  | _ :: _, [] => isFalse nofun

end

instance : DecidableEq Tree := decEq

end Tree

end TruthTable
