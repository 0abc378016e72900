import Mathlib.Data.List.Forall2
import TruthTable.Tree.Validation

/-!
# Validation reports exactly the offending nodes

A node has at most one error of its own, which depends on its name and on the
number of its arguments but on nothing below it. Validation fails with the errors
of all nodes in pre-order, those below a faulty node included, and succeeds where
there are none.
-/

namespace TruthTable.Proofs.Validation

mutual

/-- The nodes of a tree: each before its arguments, and these from left to right. -/
def nodes : Tree → List Tree
  | .leaf name => [.leaf name]
  | .node head args => .node head args :: nodesEach args

def nodesEach : List Tree → List Tree
  | [] => []
  | t :: ts => nodes t ++ nodesEach ts

end

/-- Equality up to the case of ASCII letters. -/
def sameLetters (a b : String) : Bool :=
  a.toList.map Char.toLower == b.toList.map Char.toLower

/-- The error of a node by itself. Names are shown as they were written. -/
def ownError : Tree → Option NodeError
  | .leaf name => if isWord name then none else some (.invalidSymbol name)
  | .node head args =>
    match Connective.all.find? fun c => sameLetters c.keyword head with
    | none => some (.unknownConnective head)
    | some c =>
      if c.arity.accepts args.length then none
      else some (.arityMismatch head c.arity args.length)

def errors (t : Tree) : List NodeError :=
  (nodes t).filterMap ownError

theorem nodesEach_eq_flatMap (ts : List Tree) : nodesEach ts = ts.flatMap nodes := by
  induction ts with
  | nil => rfl
  | cons t ts ih => rw [nodesEach, ih, List.flatMap_cons]

theorem errors_leaf (name : String) : errors (.leaf name) = (ownError (.leaf name)).toList := by
  cases h : ownError (.leaf name) <;> simp [errors, nodes, h]

theorem errors_node (head : String) (args : List Tree) :
    errors (.node head args) = (ownError (.node head args)).toList ++ args.flatMap errors := by
  have hargs : (nodesEach args).filterMap ownError = args.flatMap errors := by
    rw [nodesEach_eq_flatMap, List.filterMap_flatMap]
    rfl
  cases h : ownError (.node head args) <;> simp [errors, nodes, h, hargs]

theorem keyword_lower (c : Connective) :
    c.keyword.toList.map Char.toLower = c.keyword.toList := by
  rcases c with _ | (_ | _) | (_ | _ | _) <;> decide

theorem sameLetters_keyword (c : Connective) (name : String) :
    sameLetters c.keyword name = (c.keyword == Connective.lowerCase name) := by
  rw [Bool.eq_iff_iff, sameLetters, beq_iff_eq, beq_iff_eq, keyword_lower, Connective.lowerCase,
    ← String.toList_inj, String.toList_ofList]

theorem ofName?_eq_find? (name : String) :
    Connective.ofName? name = Connective.all.find? fun c => sameLetters c.keyword name := by
  rw [Connective.ofName?, Connective.ofKeyword?]
  congr 1
  funext c
  exact (sameLetters_keyword c name).symm

/-- The own error of a compound is the failure to find its connective. -/
theorem namedFor_cases (head : String) (args : List Tree) :
    (∃ c, Connective.namedFor head args.length = .ok c ∧ c.arity.accepts args.length = true ∧
      ownError (.node head args) = none) ∨
    ∃ e, Connective.namedFor head args.length = .error e ∧
      ownError (.node head args) = some e := by
  rw [ownError, ← ofName?_eq_find?, Connective.namedFor, Connective.named]
  cases Connective.ofName? head with
  | none => exact Or.inr ⟨_, rfl, rfl⟩
  | some c =>
    cases ha : c.arity.accepts args.length with
    | true => exact Or.inl ⟨c, by simp [ha], ha, by simp [ha]⟩
    | false => exact Or.inr ⟨.arityMismatch head c.arity args.length, by simp [ha], by simp [ha]⟩

/-- A result that fails with the given errors, or succeeds where there are none. -/
def Reports {α : Type} : Except (List NodeError) α → List NodeError → Prop
  | .ok _, es => es = []
  | .error es', es => es' = es ∧ es ≠ []

/-- A connective that accepts the operands makes a formula of them. -/
theorem exists_compound {c : Connective} {fs : List Formula}
    (h : c.arity.accepts fs.length = true) : ∃ f, Formula.compound c fs = .ok f := by
  cases c with
  | not =>
    obtain ⟨f, rfl⟩ := List.length_eq_one_iff.mp (beq_iff_eq.mp h)
    exact ⟨.not f, rfl⟩
  | binary op =>
    obtain ⟨l, r, rfl⟩ := List.length_eq_two.mp (beq_iff_eq.mp h)
    exact ⟨.binary op l r, rfl⟩
  | variadic op =>
    cases fs with
    | nil => cases h
    | cons f fs => exact ⟨.variadic op f fs, rfl⟩

theorem validateArgs_eq_ok_iff (ts : List Tree) (fs : List Formula) :
    Tree.validateArgs ts = .ok fs ↔ List.Forall₂ (fun t f => t.validate = .ok f) ts fs := by
  induction ts generalizing fs with
  | nil => cases fs <;> simp [Tree.validateArgs]
  | cons t ts ih =>
    cases fs with
    | nil => rw [Tree.validateArgs]; split <;> simp
    | cons f fs =>
      rw [List.forall₂_cons, ← ih, Tree.validateArgs]
      cases t.validate <;> cases Tree.validateArgs ts <;> simp

theorem reports_validateArgs {ts : List Tree} (h : ∀ t ∈ ts, Reports t.validate (errors t)) :
    Reports (Tree.validateArgs ts) (ts.flatMap errors) := by
  induction ts with
  | nil => rfl
  | cons t ts ih =>
    have ht := h t (List.mem_cons_self ..)
    have hts := ih fun u hu => h u (List.mem_cons_of_mem _ hu)
    rw [Tree.validateArgs, List.flatMap_cons]
    cases hv : t.validate with
    | ok f =>
      rw [hv] at ht
      rw [show errors t = [] from ht, List.nil_append]
      cases hvs : Tree.validateArgs ts <;> rw [hvs] at hts <;> exact hts
    | error es =>
      rw [hv] at ht
      obtain ⟨rfl, hne⟩ := ht
      cases hvs : Tree.validateArgs ts with
      | ok fs =>
        rw [hvs] at hts
        rw [show ts.flatMap errors = [] from hts, List.append_nil]
        exact ⟨rfl, hne⟩
      | error es' =>
        rw [hvs] at hts
        obtain ⟨rfl, -⟩ := hts
        exact ⟨rfl, List.append_ne_nil_of_left_ne_nil hne _⟩

/-- Of the node and its arguments, each adds its errors, and with none of them the
formula is built. -/
theorem reports_node {head : String} {args : List Tree}
    (h : Reports (Tree.validateArgs args) (args.flatMap errors)) :
    Reports (Tree.node head args).validate (errors (.node head args)) := by
  rw [Tree.validate, errors_node]
  cases hargs : Tree.validateArgs args with
  | error es =>
    rw [hargs] at h
    obtain ⟨rfl, hne⟩ := h
    rcases namedFor_cases head args with ⟨c, hc, -, hown⟩ | ⟨e, hc, hown⟩
    · rw [hc, hown]
      exact ⟨rfl, hne⟩
    · rw [hc, hown]
      exact ⟨rfl, List.cons_ne_nil _ _⟩
  | ok fs =>
    rw [hargs] at h
    rw [show args.flatMap errors = [] from h, List.append_nil]
    rcases namedFor_cases head args with ⟨c, hc, ha, hown⟩ | ⟨e, hc, hown⟩
    · have hlength := ((validateArgs_eq_ok_iff args fs).mp hargs).length_eq
      rw [hlength] at ha
      obtain ⟨f, hf⟩ := exists_compound ha
      rw [hc, hown, Tree.assemble, hf]
      rfl
    · rw [hc, hown]
      exact ⟨rfl, List.cons_ne_nil _ _⟩

theorem reports_validate (t : Tree) : Reports t.validate (errors t) := by
  induction t using Tree.induction with
  | leaf name =>
    rw [errors_leaf, ownError, Tree.validate, Symbol.named]
    cases hw : isWord name with
    | true => simp [Symbol.ofName?, hw, Reports]
    | false => simp [Symbol.ofName?, hw, Reports]
  | node head args ih => exact reports_node (reports_validateArgs ih)

theorem errors_of_validate {t : Tree} {es : List NodeError} (h : t.validate = .error es) :
    es = errors t := by
  have hr := reports_validate t
  rw [h] at hr
  exact hr.1

theorem headAccepts_iff (head : String) (args : List Tree) :
    Tree.headAccepts head args.length = true ↔ ownError (.node head args) = none := by
  rw [ownError, ← ofName?_eq_find?, Tree.headAccepts]
  cases Connective.ofName? head with
  | none => simp
  | some c => cases c.arity.accepts args.length <;> simp

theorem areValid_iff (ts : List Tree) :
    Tree.areValid ts = true ↔ ∀ t ∈ ts, t.isValid = true := by
  induction ts with
  | nil => simp [Tree.areValid]
  | cons t ts ih => rw [Tree.areValid, Bool.and_eq_true, ih, List.forall_mem_cons]

theorem isValid_iff (t : Tree) : t.isValid = true ↔ errors t = [] := by
  induction t using Tree.induction with
  | leaf name =>
    rw [errors_leaf, ownError, Tree.isValid]
    cases isWord name <;> simp
  | node head args ih =>
    rw [errors_node, Tree.isValid, Bool.and_eq_true, headAccepts_iff, areValid_iff,
      List.append_eq_nil_iff, Option.toList_eq_nil_iff, List.flatMap_eq_nil_iff]
    exact and_congr_right fun _ => forall₂_congr ih

/-- **Validation and the errors of the nodes.** A tree fails with the errors of all
its nodes in pre-order, at least one; it denotes a formula exactly if there are
none, and the yes-or-no check says the same. -/
theorem validate_eq_error_iff (t : Tree) :
    (∀ es, t.validate = .error es ↔ es = errors t ∧ es ≠ []) ∧
    ((∃ f, t.validate = .ok f) ↔ errors t = []) ∧ (t.isValid = true ↔ errors t = []) := by
  have hr := reports_validate t
  refine ⟨fun es => ?_, ?_, isValid_iff t⟩
  · constructor
    · intro h
      rw [h] at hr
      exact ⟨hr.1, hr.1 ▸ hr.2⟩
    · rintro ⟨rfl, hne⟩
      cases hv : t.validate with
      | error es => rw [errors_of_validate hv]
      | ok f => rw [hv] at hr; exact absurd hr hne
  · constructor
    · rintro ⟨f, hf⟩
      rw [hf] at hr
      exact hr
    · intro hnil
      cases hv : t.validate with
      | error es => rw [hv] at hr; exact absurd hnil hr.2
      | ok f => exact ⟨f, rfl⟩

example : (Tree.node "NOT" [.leaf "A", .leaf "b-c"]).validate =
    .error [.arityMismatch "NOT" (.exactly 1) 2, .invalidSymbol "b-c"] := by decide +kernel

end TruthTable.Proofs.Validation
