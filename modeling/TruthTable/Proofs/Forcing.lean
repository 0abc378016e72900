import TruthTable.Plan
import TruthTable.Proofs.Completion
import TruthTable.Proofs.Evaluation

/-!
# Forced literals and the plan

A literal that stands as an operand of an outermost conjunction holds in every
assignment that satisfies the conjunction, so forcing it loses none of them. This
needs no consistency: a conjunction with a literal stated both ways is satisfied
by no assignment at all. The plan then splits the symbols of both formulas into
forced and free ones, and between them they bind every occurrence.
-/

namespace TruthTable.Proofs.Forcing

open Evaluation Completion

theorem value?_foldl_insert (pairs : List (Symbol × Bool)) (m : Model) (s : Symbol) :
    (pairs.foldl (fun m p => m.insert p.1 p.2) m).value? s =
      (pairs.reverse.lookup s).or (m.value? s) := by
  induction pairs generalizing m with
  | nil => rfl
  | cons p pairs ih =>
    obtain ⟨t, b⟩ := p
    rw [List.foldl_cons, ih, List.reverse_cons, List.lookup_append, Model.value?_insert,
      Association.lookup_cons_eq]
    by_cases h : s = t
    · subst h
      simp
    · simp [h]

/-- The last binding of a symbol is the one that counts. -/
theorem value?_ofList (pairs : List (Symbol × Bool)) (s : Symbol) :
    (Model.ofList pairs).value? s = pairs.reverse.lookup s := by
  rw [Model.ofList, value?_foldl_insert, Model.value?_empty, Option.or_none]

theorem mem_of_lookup {pairs : List (Symbol × Bool)} {s : Symbol} {b : Bool}
    (h : pairs.lookup s = some b) : (s, b) ∈ pairs := by
  obtain ⟨before, after, he, _⟩ := List.lookup_eq_some_iff.mp h
  rw [he]
  simp

theorem mem_of_value?_ofList {pairs : List (Symbol × Bool)} {s : Symbol} {b : Bool}
    (h : (Model.ofList pairs).value? s = some b) : (s, b) ∈ pairs := by
  rw [value?_ofList] at h
  exact List.mem_reverse.mp (mem_of_lookup h)

/-- The literals among the operands of an outermost conjunction, in order. -/
def literals : Formula → List (Symbol × Bool)
  | .variadic .and f fs => (f :: fs).filterMap Formula.literal?
  | _ => []

theorem forced_eq_ofList (kb : Formula) : kb.forced = Model.ofList (literals kb) := by
  unfold literals
  split
  · rfl
  · rename_i h
    rw [Formula.forced]
    · rfl
    · exact h

theorem holds_literal {f : Formula} {s : Symbol} {b : Bool} (h : f.literal? = some (s, b))
    (v : Symbol → Bool) : f.holds v = true ↔ v s = b := by
  unfold Formula.literal? at h
  split at h
  · cases h
    simp [Formula.holds]
  · cases h
    simp [Formula.holds]
  · cases h

theorem mem_atoms_of_literal {f : Formula} {s : Symbol} {b : Bool}
    (h : f.literal? = some (s, b)) : s ∈ atoms f := by
  unfold Formula.literal? at h
  split at h
  · cases h
    simp [atoms]
  · cases h
    simp [atoms]
  · cases h

theorem holds_and (f : Formula) (fs : List Formula) (v : Symbol → Bool) :
    (Formula.variadic .and f fs).holds v = true ↔ ∀ g ∈ f :: fs, g.holds v = true := by
  rw [Formula.holds, Formula.holdsEach_eq_map]
  simp [Variadic.apply]

theorem mem_literals {kb : Formula} {s : Symbol} {b : Bool} (h : (s, b) ∈ literals kb) :
    s ∈ atoms kb ∧ ∀ v, kb.holds v = true → v s = b := by
  unfold literals at h
  split at h
  · rename_i f fs
    obtain ⟨g, hg, hl⟩ := List.mem_filterMap.mp h
    constructor
    · exact atoms_subset_atomsEach hg (mem_atoms_of_literal hl)
    · intro v hv
      exact (holds_literal hl v).mp ((holds_and f fs v).mp hv g hg)
  · cases h

theorem agrees_forced {kb : Formula} {v : Symbol → Bool} (h : kb.holds v = true) :
    Agrees v kb.forced := by
  intro s b hb
  rw [forced_eq_ofList] at hb
  exact (mem_literals (mem_of_value?_ofList hb)).2 v h

theorem mem_atoms_of_forced {kb : Formula} {s : Symbol} (h : kb.forced.contains s = true) :
    s ∈ atoms kb := by
  obtain ⟨b, hb⟩ := Option.isSome_iff_exists.mp h
  rw [forced_eq_ofList] at hb
  exact (mem_literals (mem_of_value?_ofList hb)).1

def allSymbols (kb statement : Formula) : List Symbol :=
  statement.collectSymbols kb.symbols

theorem mem_allSymbols {kb statement : Formula} {s : Symbol} :
    s ∈ allSymbols kb statement ↔ s ∈ atoms kb ∨ s ∈ atoms statement := by
  rw [allSymbols, mem_collectSymbols, mem_symbols]

theorem nodup_allSymbols (kb statement : Formula) : (allSymbols kb statement).Nodup :=
  nodup_collectSymbols statement (nodup_symbols kb)

theorem free_make (kb statement : Formula) (settings : Settings) :
    (Plan.make kb statement settings).free =
      (allSymbols kb statement).filter fun s =>
        !(Plan.make kb statement settings).forced.contains s := rfl

/-- Negation has the occurrences of its operand, so it has the same plan. -/
theorem make_not (kb statement : Formula) (settings : Settings) :
    Plan.make kb (.not statement) settings = Plan.make kb statement settings := rfl

/-- Whatever the settings, the forced values hold wherever the knowledge base does. -/
theorem agrees_plan {kb : Formula} (statement : Formula) (settings : Settings)
    {v : Symbol → Bool} (h : kb.holds v = true) :
    Agrees v (Plan.make kb statement settings).forced := by
  unfold Plan.make
  split
  · exact agrees_forced h
  · exact agrees_empty v

theorem free_of_not_forcing (kb statement : Formula) {settings : Settings}
    (h : settings.literalForcing = false) :
    (Plan.make kb statement settings).free = allSymbols kb statement ∧
      (Plan.make kb statement settings).forced = Model.empty := by
  have he : (Plan.make kb statement settings).forced = Model.empty := by simp [Plan.make, h]
  refine ⟨?_, he⟩
  rw [free_make, he]
  exact List.filter_eq_self.mpr fun s _ => rfl

/-- Forced symbols come from the knowledge base, never from the statement alone. -/
theorem mem_atoms_of_plan {kb statement : Formula} {settings : Settings} {s : Symbol}
    (h : (Plan.make kb statement settings).forced.contains s = true) : s ∈ atoms kb := by
  unfold Plan.make at h
  split at h
  · exact mem_atoms_of_forced h
  · cases h

theorem mem_allSymbols_of_forced {kb statement : Formula} {settings : Settings} {s : Symbol}
    (h : (Plan.make kb statement settings).forced.contains s = true) :
    s ∈ allSymbols kb statement :=
  mem_allSymbols.mpr (Or.inl (mem_atoms_of_plan h))

/-- **The plan covers both formulas.** Every occurrence is free or forced. -/
theorem plan_covers (kb statement : Formula) (settings : Settings) {s : Symbol}
    (h : s ∈ atoms kb ∨ s ∈ atoms statement) :
    s ∈ (Plan.make kb statement settings).free ∨
      (Plan.make kb statement settings).forced.contains s = true := by
  rw [free_make, List.mem_filter]
  cases hc : (Plan.make kb statement settings).forced.contains s with
  | true => exact Or.inr rfl
  | false => exact Or.inl ⟨mem_allSymbols.mpr h, rfl⟩

theorem mem_free {kb statement : Formula} {settings : Settings} {s : Symbol} :
    s ∈ (Plan.make kb statement settings).free ↔
      (s ∈ atoms kb ∨ s ∈ atoms statement) ∧
        ¬ (Plan.make kb statement settings).forced.contains s = true := by
  rw [free_make, List.mem_filter, mem_allSymbols]
  simp

/-- **A plan is a partition.** The free symbols are the occurrences of the knowledge base
and then of the statement, later repetitions and forced symbols left out. Forced symbols
occur in the knowledge base; without forcing there are none. So the occurrences of either
formula are each free or forced and never both, nothing else is, and the statement may be
negated without a change of plan. -/
theorem make_partitions (kb statement : Formula) (settings : Settings) :
    let plan := Plan.make kb statement settings
    let listed := (atoms kb ++ atoms statement).eraseDups
    plan.free = listed.filter (fun s => !plan.forced.contains s) ∧
    plan.free.Nodup ∧
    (∀ s, plan.forced.contains s = true → s ∈ atoms kb) ∧
    (settings.literalForcing = true → plan.forced = kb.forced) ∧
    (settings.literalForcing = false → plan.forced = Model.empty ∧ plan.free = listed) ∧
    (∀ s, s ∈ atoms kb ∨ s ∈ atoms statement →
      Xor (s ∈ plan.free) (plan.forced.contains s = true)) ∧
    (∀ s, s ∈ plan.free ∨ plan.forced.contains s = true → s ∈ atoms kb ∨ s ∈ atoms statement) ∧
    Plan.make kb (.not statement) settings = plan := by
  intro plan listed
  have hlisted : allSymbols kb statement = listed := collectSymbols_symbols kb statement
  refine ⟨hlisted ▸ rfl, ?_, fun s hs => mem_atoms_of_plan hs, ?_, ?_, ?_, ?_,
    make_not kb statement settings⟩
  · exact (nodup_allSymbols kb statement).filter _
  · intro hforcing
    simp [plan, Plan.make, hforcing]
  · intro hforcing
    obtain ⟨hfree, hforced⟩ := free_of_not_forcing kb statement hforcing
    exact ⟨hforced, hfree.trans hlisted⟩
  · intro s hs
    by_cases hc : plan.forced.contains s = true
    · exact Or.inr ⟨hc, fun hfree => (mem_free.mp hfree).2 hc⟩
    · exact Or.inl ⟨mem_free.mpr ⟨hs, hc⟩, hc⟩
  · rintro s (hfree | hc)
    · exact (mem_free.mp hfree).1
    · exact Or.inl (mem_atoms_of_plan hc)

end TruthTable.Proofs.Forcing
