import Mathlib.Data.List.Nodup
import Mathlib.Logic.Embedding.Basic
import TruthTable.Proofs.Entailment

/-!
# Reports under other names

Symbols are compared with each other and with nothing else. So if every symbol is given
another name, and different symbols get different names, a check takes the same course:
symbols are met in the same order, the same literals are forced, and the leaves come one
after the other with the same answers. The names show in the symbols that a report lists
and nowhere else; the order of names has no part in it.
-/

namespace TruthTable.Proofs.Renaming

open Evaluation Completion Forcing Search Entailment

variable (r : Symbol ↪ Symbol)

mutual

def rename : Formula → Formula
  | .atom s => .atom (r s)
  | .not f => .not (rename f)
  | .binary op a b => .binary op (rename a) (rename b)
  | .variadic op f fs => .variadic op (rename f) (renameEach fs)

def renameEach : List Formula → List Formula
  | [] => []
  | f :: fs => rename f :: renameEach fs

end

theorem renameEach_eq_map (fs : List Formula) : renameEach r fs = fs.map (rename r) := by
  induction fs with
  | nil => rfl
  | cons f fs ih => rw [renameEach, ih, List.map_cons]

/-- Renaming keeps every occurrence in its place. -/
theorem atoms_rename (f : Formula) : atoms (rename r f) = (atoms f).map r := by
  induction f using Formula.induction with
  | atom s => rfl
  | not f ih => exact ih
  | binary op a b iha ihb => rw [rename, atoms, atoms, iha, ihb, List.map_append]
  | variadic op f fs ihf ihfs =>
    rw [rename, atoms, atoms, ihf, List.map_append]
    congr 1
    induction fs with
    | nil => rfl
    | cons g gs ih =>
      rw [renameEach, atomsEach, atomsEach, ihfs g (by simp), List.map_append,
        ih fun h hh => ihfs h (by simp [hh])]

/-- A renamed formula has the value of the formula under what the new names stand for. -/
theorem holds_rename (f : Formula) (v : Symbol → Bool) :
    (rename r f).holds v = f.holds fun s => v (r s) := by
  induction f using Formula.induction with
  | atom s => rfl
  | not f ih => rw [rename, Formula.holds, Formula.holds, ih]
  | binary op a b iha ihb => rw [rename, Formula.holds, Formula.holds, iha, ihb]
  | variadic op f fs ihf ihfs =>
    rw [rename, Formula.holds, Formula.holds, ihf, renameEach_eq_map, Formula.holdsEach_eq_map,
      Formula.holdsEach_eq_map, List.map_map]
    congr 2
    exact List.map_congr_left ihfs

theorem foldl_note_map (l seen : List Symbol) :
    (l.map r).foldl note (seen.map r) = (l.foldl note seen).map r := by
  induction l generalizing seen with
  | nil => rfl
  | cons s l ih =>
    have hnote : note (seen.map r) (r s) = (note seen s).map r := by
      unfold note
      by_cases hs : s ∈ seen
      · simp [hs]
      · simp [hs, r.injective.eq_iff]
    rw [List.map_cons, List.foldl_cons, List.foldl_cons, hnote, ih]

theorem allSymbols_rename (kb statement : Formula) :
    allSymbols (rename r kb) (rename r statement) = (allSymbols kb statement).map r := by
  unfold allSymbols Formula.symbols
  rw [collectSymbols_eq_foldl, collectSymbols_eq_foldl, collectSymbols_eq_foldl,
    collectSymbols_eq_foldl, atoms_rename, atoms_rename, ← foldl_note_map, ← foldl_note_map]
  rfl

/-- The same bindings in the same order, under the new names. -/
def renameModel (m : Model) : Model where
  bindings := m.bindings.map fun p => (r p.1, p.2)
  nodup := by
    have h := m.nodup.map r.injective
    rw [List.map_map] at h ⊢
    exact h

theorem put_map (s : Symbol) (b : Bool) (l : List (Symbol × Bool)) :
    Association.put (r s) b (l.map fun p => (r p.1, p.2)) =
      (Association.put s b l).map fun p => (r p.1, p.2) := by
  induction l with
  | nil => rfl
  | cons p l ih =>
    obtain ⟨t, c⟩ := p
    by_cases h : t = s
    · simp [Association.put, h]
    · simp [Association.put, h, ih]

theorem insert_renameModel (m : Model) (s : Symbol) (b : Bool) :
    (renameModel r m).insert (r s) b = renameModel r (m.insert s b) := by
  unfold Model.insert renameModel
  congr 1
  exact put_map r s b m.bindings

theorem lookup_map (s : Symbol) (l : List (Symbol × Bool)) :
    (l.map fun p => (r p.1, p.2)).lookup (r s) = l.lookup s := by
  induction l with
  | nil => rfl
  | cons p l ih =>
    rw [List.map_cons, Association.lookup_cons_eq, Association.lookup_cons_eq, ih]
    simp only [r.injective.eq_iff]

theorem value?_renameModel (m : Model) (s : Symbol) :
    (renameModel r m).value? (r s) = m.value? s :=
  lookup_map r s m.bindings

theorem contains_renameModel (m : Model) (s : Symbol) :
    (renameModel r m).contains (r s) = m.contains s := by
  rw [Model.contains, value?_renameModel, Model.contains]

theorem assignment_renameModel (m : Model) (s : Symbol) :
    (renameModel r m).assignment (r s) = m.assignment s := by
  rw [Model.assignment, value?_renameModel, Model.assignment]

theorem ofList_map (pairs : List (Symbol × Bool)) :
    Model.ofList (pairs.map fun p => (r p.1, p.2)) = renameModel r (Model.ofList pairs) := by
  have hfold : ∀ m : Model,
      (pairs.map fun p => (r p.1, p.2)).foldl (fun m p => m.insert p.1 p.2) (renameModel r m) =
        renameModel r (pairs.foldl (fun m p => m.insert p.1 p.2) m) := by
    induction pairs with
    | nil => exact fun m => rfl
    | cons p pairs ih =>
      intro m
      rw [List.map_cons, List.foldl_cons, List.foldl_cons, insert_renameModel, ih]
  exact hfold Model.empty

theorem literal?_rename (f : Formula) :
    (rename r f).literal? = f.literal?.map fun p => (r p.1, p.2) := by
  cases f with
  | not f => cases f <;> rfl
  | atom s => rfl
  | binary op a b => rfl
  | variadic op f fs => rfl

theorem literals_rename (kb : Formula) :
    literals (rename r kb) = (literals kb).map fun p => (r p.1, p.2) := by
  have hall : ∀ fs : List Formula, (fs.map (rename r)).filterMap Formula.literal? =
      (fs.filterMap Formula.literal?).map fun p => (r p.1, p.2) := by
    intro fs
    rw [List.filterMap_map, List.map_filterMap]
    congr 1
    funext f
    exact literal?_rename r f
  cases kb with
  | variadic op f fs =>
    cases op with
    | and =>
      have h := hall (f :: fs)
      rw [List.map_cons, ← renameEach_eq_map] at h
      exact h
    | or => rfl
    | xor => rfl
  | atom s => rfl
  | not f => rfl
  | binary op a b => rfl

theorem forced_rename (kb : Formula) : (rename r kb).forced = renameModel r kb.forced := by
  rw [forced_eq_ofList, literals_rename, ofList_map, forced_eq_ofList]

def renamePlan (p : Plan) : Plan :=
  ⟨renameModel r p.forced, p.free.map r⟩

theorem make_renamePlan (kb statement : Formula) (settings : Settings) :
    Plan.make (rename r kb) (rename r statement) settings =
      renamePlan r (Plan.make kb statement settings) := by
  have hforced : (Plan.make (rename r kb) (rename r statement) settings).forced =
      renameModel r (Plan.make kb statement settings).forced := by
    unfold Plan.make
    cases settings.literalForcing with
    | true => exact forced_rename r kb
    | false => rfl
  have hfree : (Plan.make (rename r kb) (rename r statement) settings).free =
      (Plan.make kb statement settings).free.map r := by
    rw [free_make, free_make, hforced, allSymbols_rename, List.filter_map]
    congr 1
    apply List.filter_congr
    intro s _
    rw [Function.comp_apply, contains_renameModel]
  unfold renamePlan
  rw [← hforced, ← hfree]

theorem completions_renameModel (l : List Symbol) (m : Model) :
    Model.completions (l.map r) (renameModel r m) =
      (Model.completions l m).map (renameModel r) := by
  induction l generalizing m with
  | nil => rfl
  | cons s l ih =>
    rw [List.map_cons, Model.completions, Model.completions, List.map_append, insert_renameModel,
      insert_renameModel, ih, ih]

theorem passes_rename (kb target : Formula) (m : Model) :
    passes (rename r kb) (rename r target) (renameModel r m).assignment =
      passes kb target m.assignment := by
  simp only [passes, holds_rename, assignment_renameModel]

/-- The leaves answer the same, one after the other. -/
theorem answers_rename (kb target : Formula) (l : List Symbol) (m : Model) :
    answers (rename r kb) (rename r target) (l.map r) (renameModel r m) =
      answers kb target l m := by
  unfold answers tried
  rw [completions_renameModel, List.map_map, List.map_map, List.map_map]
  apply List.map_congr_left
  intro n _
  exact passes_rename r kb target n

theorem planAnswers_rename (kb statement target : Formula) (settings : Settings) :
    planAnswers (rename r kb) (rename r target)
        (Plan.make (rename r kb) (rename r statement) settings) =
      planAnswers kb target (Plan.make kb statement settings) := by
  rw [make_renamePlan]
  exact answers_rename r kb target _ _

/-- **Names do not count.** Under all settings there is a report before renaming and one
after. Verdict, answers and the number of models visited are the same. The free symbols and
the forced values are those from before, in the same order, with the new names in place of
the old. -/
theorem make_rename (kb statement : Formula) (settings : Settings) :
    ∃ before after, Report.make kb statement settings = .ok before ∧
      Report.make (rename r kb) (rename r statement) settings = .ok after ∧
      after.verdict = before.verdict ∧
      after.statementEntailed = before.statementEntailed ∧
      after.negationEntailed = before.negationEntailed ∧
      after.modelsChecked = before.modelsChecked ∧
      after.plan.free = before.plan.free.map r ∧
      after.plan.forced.bindings = before.plan.forced.bindings.map fun p => (r p.1, p.2) := by
  have hasserted := planAnswers_rename r kb statement statement settings
  have hnegated : planAnswers (rename r kb) (.not (rename r statement))
        (Plan.make (rename r kb) (rename r statement) settings) =
      planAnswers kb (.not statement) (Plan.make kb statement settings) :=
    planAnswers_rename r kb statement (.not statement) settings
  have hplan := make_renamePlan r kb statement settings
  refine ⟨_, _, make_eq kb statement settings,
    make_eq (rename r kb) (rename r statement) settings, ?_, ?_, ?_, ?_, ?_, ?_⟩
  · rw [hasserted, hnegated]
  · rw [hasserted]
  · rw [hnegated]
  · rw [hasserted, hnegated]
  · exact congrArg Plan.free hplan
  · exact congrArg (fun p : Plan => p.forced.bindings) hplan

end TruthTable.Proofs.Renaming
