import TruthTable.Formula.Reading
import TruthTable.Proofs.Printing

/-!
# The canonical tree of a formula

Every formula has one tree with lower-case connectives. It prints as the formula
does, and it is the only tree that denotes the formula, up to the case of its
connectives. Printing, conversion and validation are separate recursions, so each
is compared with the others constructor by constructor.
-/

namespace TruthTable.Proofs.Canonical

open Validation Printing

/-- The letter under an ASCII capital; any other character stays. -/
def lowerLetter (c : Char) : Char :=
  if 'A' ≤ c ∧ c ≤ 'Z' then Char.ofNat (c.toNat + 32) else c

def lowerLetters (name : String) : String :=
  String.ofList (name.toList.map lowerLetter)

theorem lowerLetter_eq (c : Char) : lowerLetter c = c.toLower := by
  unfold lowerLetter Char.toLower
  by_cases h : 'A' ≤ c ∧ c ≤ 'Z'
  · have hvals : c.val ≥ 'A'.val ∧ c.val ≤ 'Z'.val := h
    have hle : c.val.toNat ≤ 90 := h.2
    have hvalid : (c.val.toNat + 32).isValidChar := Or.inl (by omega)
    have hsum : (c.val + ('a'.val - 'A'.val)).toNat = (c.val.toNat + 32) % 2 ^ 32 :=
      UInt32.toNat_add c.val ('a'.val - 'A'.val)
    have hof : (Char.ofNat (c.val.toNat + 32)).toNat = c.val.toNat + 32 := by
      rw [Char.ofNat, dif_pos hvalid]
      rfl
    rw [if_pos h, dif_pos hvals, ← Char.toNat_inj]
    exact hof.trans (hsum.trans (by omega)).symm
  · have hvals : ¬ (c.val ≥ 'A'.val ∧ c.val ≤ 'Z'.val) := h
    rw [if_neg h, dif_neg hvals]

theorem lowerLetters_eq (name : String) : lowerLetters name = Connective.lowerCase name := by
  have hletter : lowerLetter = Char.toLower := funext lowerLetter_eq
  rw [lowerLetters, hletter, Connective.lowerCase]

mutual

/-- The tree with the names of all compounds in lower case. Bare words keep their
case. -/
def lowerHeads : Tree → Tree
  | .leaf name => .leaf name
  | .node head args => .node (lowerLetters head) (lowerHeadsEach args)

def lowerHeadsEach : List Tree → List Tree
  | [] => []
  | t :: ts => lowerHeads t :: lowerHeadsEach ts

end

theorem lowerHeadsEach_eq_map (ts : List Tree) : lowerHeadsEach ts = ts.map lowerHeads := by
  induction ts with
  | nil => rfl
  | cons t ts ih => rw [lowerHeadsEach, ih, List.map_cons]

theorem lowerLetters_keyword (c : Connective) : lowerLetters c.keyword = c.keyword := by
  rw [lowerLetters_eq, Connective.lowerCase, keyword_lower, String.ofList_toList]

theorem ofName?_eq_some_iff (name : String) (c : Connective) :
    Connective.ofName? name = some c ↔ lowerLetters name = c.keyword := by
  rw [Connective.ofName?, lowerLetters_eq]
  constructor
  · intro h
    exact (Connective.keyword_of_ofKeyword? h).symm
  · intro h
    rw [h, Connective.ofKeyword?_keyword]

theorem namedFor_eq_ok_iff (name : String) (n : Nat) (c : Connective) :
    Connective.namedFor name n = .ok c ↔
      Connective.ofName? name = some c ∧ c.arity.accepts n = true := by
  rw [Connective.namedFor, Connective.named]
  cases Connective.ofName? name with
  | none => simp
  | some d =>
    cases ha : d.arity.accepts n with
    | true =>
      simp only [ha, if_true, Except.ok.injEq, Option.some.injEq]
      exact ⟨fun h => ⟨h, h ▸ ha⟩, fun h => h.1⟩
    | false =>
      simp only [ha, Bool.false_eq_true, if_false, reduceCtorEq, Option.some.injEq, false_iff]
      rintro ⟨rfl, hd⟩
      rw [ha] at hd
      cases hd

theorem accepts_operands {f : Formula} {c : Connective} (h : f.connective? = some c) :
    c.arity.accepts f.operands.length = true := by
  cases f with
  | atom s => cases h
  | not f => cases h; rfl
  | binary op l r => cases h; rfl
  | variadic op f fs =>
    cases h
    exact decide_eq_true (Nat.one_le_iff_ne_zero.mpr (Nat.succ_ne_zero fs.length))

theorem compound_eq_ok_iff (c : Connective) (fs : List Formula) (f : Formula) :
    Formula.compound c fs = .ok f ↔ f.connective? = some c ∧ f.operands = fs := by
  constructor
  · intro h
    unfold Formula.compound at h
    split at h <;> cases h <;> exact ⟨rfl, rfl⟩
  · rintro ⟨hc, rfl⟩
    cases f <;> cases hc <;> rfl

theorem toTree_of_connective {f : Formula} {c : Connective} (h : f.connective? = some c) :
    f.toTree = .node c.keyword (f.operands.map Formula.toTree) := by
  cases f with
  | atom s => cases h
  | not f => cases h; rfl
  | binary op l r => cases h; rfl
  | variadic op f fs =>
    cases h
    rw [Formula.toTree, Formula.toTrees_eq_map, Formula.operands, List.map_cons]

theorem validate_leaf_iff (name : String) (f : Formula) :
    (Tree.leaf name).validate = .ok f ↔ .leaf name = f.toTree := by
  rw [Tree.validate, Symbol.named]
  constructor
  · intro h
    cases hs : Symbol.ofName? name with
    | none => rw [hs] at h; cases h
    | some s =>
      rw [hs] at h
      cases h
      rw [Formula.toTree, Symbol.name_of_ofName? hs]
  · intro h
    cases f with
    | atom s =>
      rw [Formula.toTree, Tree.leaf.injEq] at h
      rw [h, Symbol.ofName?_name]
    | not f => cases h
    | binary op l r => cases h
    | variadic op f fs => cases h

theorem assemble_eq_ok_iff (connective : Except NodeError Connective)
    (operands : Except (List NodeError) (List Formula)) (f : Formula) :
    Tree.assemble connective operands = .ok f ↔
      ∃ c fs, connective = .ok c ∧ operands = .ok fs ∧ Formula.compound c fs = .ok f := by
  cases connective with
  | error e => cases operands <;> simp [Tree.assemble]
  | ok c =>
    cases operands with
    | error es => simp [Tree.assemble]
    | ok fs => cases hc : Formula.compound c fs <;> simp [Tree.assemble, hc]

/-- A compound denotes the formulas with its connective and what its arguments
denote. -/
theorem validate_node_iff (head : String) (args : List Tree) (f : Formula) :
    (Tree.node head args).validate = .ok f ↔
      ∃ c, Connective.ofName? head = some c ∧ f.connective? = some c ∧
        List.Forall₂ (fun t g => t.validate = .ok g) args f.operands := by
  rw [Tree.validate, assemble_eq_ok_iff]
  constructor
  · rintro ⟨c, fs, hn, hv, hf⟩
    obtain ⟨hc, rfl⟩ := (compound_eq_ok_iff c fs f).mp hf
    exact ⟨c, ((namedFor_eq_ok_iff head args.length c).mp hn).1, hc,
      (validateArgs_eq_ok_iff args f.operands).mp hv⟩
  · rintro ⟨c, hn, hc, hargs⟩
    have ha : c.arity.accepts args.length = true := by
      rw [hargs.length_eq]
      exact accepts_operands hc
    exact ⟨c, f.operands, (namedFor_eq_ok_iff head args.length c).mpr ⟨hn, ha⟩,
      (validateArgs_eq_ok_iff args f.operands).mpr hargs,
      (compound_eq_ok_iff c f.operands f).mpr ⟨hc, rfl⟩⟩

theorem forall₂_congr_of_mem {α β : Type} {R S : α → β → Prop} {as : List α} {bs : List β}
    (h : ∀ a ∈ as, ∀ b, R a b ↔ S a b) : List.Forall₂ R as bs ↔ List.Forall₂ S as bs := by
  induction as generalizing bs with
  | nil => rw [List.forall₂_nil_left_iff, List.forall₂_nil_left_iff]
  | cons a as ih =>
    cases bs with
    | nil => exact iff_of_false (nomatch ·) (nomatch ·)
    | cons b bs =>
      rw [List.forall₂_cons, List.forall₂_cons, h a (List.mem_cons_self ..),
        ih fun a' ha' => h a' (List.mem_cons_of_mem _ ha')]

theorem map_eq_map_iff_forall₂ (ts : List Tree) (fs : List Formula) :
    ts.map lowerHeads = fs.map Formula.toTree ↔
      List.Forall₂ (fun t f => lowerHeads t = f.toTree) ts fs := by
  rw [← List.forall₂_eq_eq_eq, List.forall₂_map_left_iff, List.forall₂_map_right_iff]

/-- A tree denotes a formula exactly if its lower-case form is the formula's tree. -/
theorem validate_iff_lowerHeads (t : Tree) (f : Formula) :
    t.validate = .ok f ↔ lowerHeads t = f.toTree := by
  induction t using Tree.induction generalizing f with
  | leaf name => exact validate_leaf_iff name f
  | node head args ih =>
    rw [validate_node_iff, lowerHeads, lowerHeadsEach_eq_map, forall₂_congr_of_mem ih,
      ← map_eq_map_iff_forall₂]
    cases hc : f.connective? with
    | none =>
      cases f with
      | atom s => simp [Formula.toTree]
      | not f => cases hc
      | binary op l r => cases hc
      | variadic op f fs => cases hc
    | some c =>
      rw [toTree_of_connective hc, Tree.node.injEq]
      constructor
      · rintro ⟨d, hd, hcd, hargs⟩
        cases hcd
        exact ⟨(ofName?_eq_some_iff head c).mp hd, hargs⟩
      · rintro ⟨hd, hargs⟩
        exact ⟨c, (ofName?_eq_some_iff head c).mpr hd, rfl, hargs⟩

theorem lowerHeads_toTree (f : Formula) : lowerHeads f.toTree = f.toTree := by
  induction f using Formula.induction with
  | atom s => rfl
  | not f ih => simp [Formula.toTree, lowerHeads, lowerHeadsEach, lowerLetters_keyword, ih]
  | binary op l r ihl ihr =>
    simp [Formula.toTree, lowerHeads, lowerHeadsEach, lowerLetters_keyword, ihl, ihr]
  | variadic op f fs ihf ihfs =>
    have hfs : (fs.map Formula.toTree).map lowerHeads = fs.map Formula.toTree := by
      rw [List.map_map]
      exact List.map_congr_left ihfs
    simp [Formula.toTree, Formula.toTrees_eq_map, lowerHeads, lowerHeadsEach_eq_map,
      lowerLetters_keyword, ihf, hfs]

theorem validate_toTree (f : Formula) : f.toTree.validate = .ok f :=
  (validate_iff_lowerHeads f.toTree f).mpr (lowerHeads_toTree f)

theorem toTree_injective {f g : Formula} (h : f.toTree = g.toTree) : f = g := by
  have hf := validate_toTree f
  rw [h, validate_toTree g] at hf
  exact (Except.ok.inj hf).symm

theorem renderArgs_toTrees {fs : List Formula} (h : ∀ f ∈ fs, f.toTree.render = f.render) :
    Tree.renderArgs (Formula.toTrees fs) = Formula.renderRest fs := by
  induction fs with
  | nil => rfl
  | cons f fs ih =>
    rw [Formula.toTrees, Tree.renderArgs, Formula.renderRest, h f (List.mem_cons_self ..),
      ih fun g hg => h g (List.mem_cons_of_mem _ hg)]

theorem render_toTree (f : Formula) : f.toTree.render = f.render := by
  induction f using Formula.induction with
  | atom s => rfl
  | not f ih =>
    simp [Formula.toTree, Formula.render, Tree.render, Tree.renderArgs, ih, String.append_assoc]
  | binary op l r ihl ihr =>
    simp [Formula.toTree, Formula.render, Tree.render, Tree.renderArgs, ihl, ihr,
      String.append_assoc]
  | variadic op f fs ihf ihfs =>
    simp [Formula.toTree, Formula.render, Tree.render, Tree.renderArgs, ihf,
      renderArgs_toTrees ihfs, String.append_assoc]

theorem isWord_keyword (c : Connective) : isWord c.keyword = true := by
  rcases c with _ | (_ | _) | (_ | _ | _) <;> decide

theorem spellable_atom (s : Symbol) : Spellable (Formula.atom s).toTree := by
  intro name hn
  rw [List.mem_singleton.mp hn]
  exact s.isWord_name

theorem spellable_toTree (f : Formula) : Spellable f.toTree := by
  induction f using Formula.induction with
  | atom s => exact spellable_atom s
  | not f ih => exact spellable_node.mpr ⟨isWord_keyword _, by simpa using ih⟩
  | binary op l r ihl ihr =>
    exact spellable_node.mpr ⟨isWord_keyword _, by simpa using ⟨ihl, ihr⟩⟩
  | variadic op f fs ihf ihfs =>
    rw [Formula.toTree, Formula.toTrees_eq_map]
    exact spellable_node.mpr ⟨isWord_keyword _, by simpa using ⟨ihf, ihfs⟩⟩

theorem read_render_formula (f : Formula) : Formula.read f.render = .ok f := by
  rw [Formula.read, ← render_toTree, read_render (spellable_toTree f)]
  simp only [validate_toTree]

/-- **The canonical form.** The tree of a formula prints as the formula and denotes
it, and the printed formula is read back. A tree denotes the formula exactly if its
lower-case form is that tree, so two trees that are valid denote the same formula
exactly if they differ at most in the case of their connectives. -/
theorem validate_eq_ok_iff (f g : Formula) (t u : Tree) :
    (f.toTree.render = f.render ∧ f.toTree.validate = .ok f ∧ Formula.read f.render = .ok f) ∧
    (t.validate = .ok f ↔ lowerHeads t = f.toTree) ∧
    (t.validate = .ok f → u.validate = .ok g → (f = g ↔ lowerHeads t = lowerHeads u)) := by
  refine ⟨⟨render_toTree f, validate_toTree f, read_render_formula f⟩,
    validate_iff_lowerHeads t f, fun ht hu => ?_⟩
  rw [(validate_iff_lowerHeads t f).mp ht, (validate_iff_lowerHeads u g).mp hu]
  exact ⟨congrArg Formula.toTree, toTree_injective⟩

example : lowerHeads (.node "AND" [.leaf "Or", .node "nOt" [.leaf "AND"]]) =
    .node "and" [.leaf "Or", .node "not" [.leaf "AND"]] := by decide +kernel

end TruthTable.Proofs.Canonical
