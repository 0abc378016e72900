import TruthTable.Formula.Evaluation

/-!
# Occurrences of symbols, and what they decide

A formula is read here as the list of its symbol occurrences from left to right,
repetitions included. The value of a formula depends on that list only, the
collected symbols are that list without its later repetitions, and evaluation
under a model stops at the first occurrence that the model leaves unbound.
-/

namespace TruthTable.Proofs.Evaluation

mutual

/-- Every occurrence of a symbol, from left to right. -/
def atoms : Formula → List Symbol
  | .atom s => [s]
  | .not f => atoms f
  | .binary _ l r => atoms l ++ atoms r
  | .variadic _ f fs => atoms f ++ atomsEach fs

def atomsEach : List Formula → List Symbol
  | [] => []
  | f :: fs => atoms f ++ atomsEach fs

end

theorem atoms_subset_atomsEach {f : Formula} {fs : List Formula} (h : f ∈ fs) :
    atoms f ⊆ atomsEach fs := by
  induction fs with
  | nil => cases h
  | cons g gs ih =>
    intro s hs
    rw [atomsEach, List.mem_append]
    rcases List.mem_cons.mp h with rfl | hmem
    · exact Or.inl hs
    · exact Or.inr (ih hmem hs)

def note (seen : List Symbol) (s : Symbol) : List Symbol :=
  if s ∈ seen then seen else seen ++ [s]

theorem collectSymbols_eq_foldl (f : Formula) (seen : List Symbol) :
    f.collectSymbols seen = (atoms f).foldl note seen := by
  induction f using Formula.induction generalizing seen with
  | atom s => rfl
  | not f ih => exact ih seen
  | binary op l r ihl ihr => rw [Formula.collectSymbols, atoms, List.foldl_append, ihl, ihr]
  | variadic op f fs ihf ihfs =>
    rw [Formula.collectSymbols, atoms, List.foldl_append, ihf]
    generalize (atoms f).foldl note seen = seen
    induction fs generalizing seen with
    | nil => rfl
    | cons g gs ih =>
      rw [Formula.collectSymbolsAll, atomsEach, List.foldl_append, ihfs g (by simp)]
      exact ih (fun h hh => ihfs h (by simp [hh])) _

theorem mem_foldl_note (l seen : List Symbol) (s : Symbol) :
    s ∈ l.foldl note seen ↔ s ∈ seen ∨ s ∈ l := by
  induction l generalizing seen with
  | nil => simp
  | cons t l ih =>
    rw [List.foldl_cons, ih, note]
    split <;> grind

theorem nodup_foldl_note (l : List Symbol) {seen : List Symbol} (h : seen.Nodup) :
    (l.foldl note seen).Nodup := by
  induction l generalizing seen with
  | nil => exact h
  | cons t l ih =>
    rw [List.foldl_cons]
    apply ih
    rw [note]
    split
    · exact h
    · grind

theorem mem_collectSymbols (f : Formula) (seen : List Symbol) (s : Symbol) :
    s ∈ f.collectSymbols seen ↔ s ∈ seen ∨ s ∈ atoms f := by
  rw [collectSymbols_eq_foldl, mem_foldl_note]

theorem mem_symbols (f : Formula) (s : Symbol) : s ∈ f.symbols ↔ s ∈ atoms f := by
  simp [Formula.symbols, mem_collectSymbols]

theorem nodup_collectSymbols (f : Formula) {seen : List Symbol} (h : seen.Nodup) :
    (f.collectSymbols seen).Nodup := by
  rw [collectSymbols_eq_foldl]
  exact nodup_foldl_note _ h

theorem nodup_symbols (f : Formula) : f.symbols.Nodup :=
  nodup_collectSymbols f List.nodup_nil

/-- What was seen comes first, then the first occurrences of everything else. -/
theorem foldl_note_eq (l seen : List Symbol) :
    l.foldl note seen = seen ++ (l.removeAll seen).eraseDups := by
  induction l generalizing seen with
  | nil => simp
  | cons t l ih =>
    rw [List.foldl_cons, ih, note, List.cons_removeAll]
    by_cases ht : t ∈ seen
    · simp [ht]
    · have hrest : l.removeAll (seen ++ [t]) = (l.removeAll seen).filter fun s => !s == t := by
        rw [List.removeAll, List.removeAll, List.filter_filter]
        apply List.filter_congr
        intro s _
        by_cases hs : s = t <;> simp [hs]
      simp [ht, hrest, List.eraseDups_cons]

/-- The symbols of two formulas are their occurrences without later repetitions. -/
theorem collectSymbols_symbols (f g : Formula) :
    g.collectSymbols f.symbols = (atoms f ++ atoms g).eraseDups := by
  rw [Formula.symbols, collectSymbols_eq_foldl, collectSymbols_eq_foldl, ← List.foldl_append,
    foldl_note_eq]
  simp

/-- Two assignments that agree on the occurrences give one value. -/
theorem holds_congr {f : Formula} {v w : Symbol → Bool} (h : ∀ s ∈ atoms f, v s = w s) :
    f.holds v = f.holds w := by
  induction f using Formula.induction with
  | atom s => exact h s (by simp [atoms])
  | not f ih => rw [Formula.holds, Formula.holds, ih h]
  | binary op l r ihl ihr =>
    rw [Formula.holds, Formula.holds, ihl fun s hs => h s (by simp [atoms, hs]),
      ihr fun s hs => h s (by simp [atoms, hs])]
  | variadic op f fs ihf ihfs =>
    rw [Formula.holds, Formula.holds, ihf fun s hs => h s (by simp [atoms, hs])]
    have he : Formula.holdsEach v fs = Formula.holdsEach w fs := by
      rw [Formula.holdsEach_eq_map, Formula.holdsEach_eq_map]
      apply List.map_congr_left
      intro g hg
      refine ihfs g hg fun s hs => h s ?_
      rw [atoms, List.mem_append]
      exact Or.inr (atoms_subset_atomsEach hg hs)
    rw [he]

/-- The first listed symbol that a model leaves unbound. -/
def firstUnbound (m : Model) (l : List Symbol) : Option Symbol :=
  l.find? fun s => !m.contains s

theorem firstUnbound_append (m : Model) (k l : List Symbol) :
    firstUnbound m (k ++ l) = (firstUnbound m k).or (firstUnbound m l) :=
  List.find?_append

theorem firstUnbound_eq_none {m : Model} {l : List Symbol} :
    firstUnbound m l = none ↔ ∀ s ∈ l, m.contains s = true := by
  simp [firstUnbound]

theorem firstUnbound_note (m : Model) (seen : List Symbol) (s : Symbol) :
    firstUnbound m (note seen s) = firstUnbound m (seen ++ [s]) := by
  rw [note]
  split
  · rename_i hs
    rw [firstUnbound_append]
    cases h : firstUnbound m seen with
    | some t => rfl
    | none =>
      have hbound := firstUnbound_eq_none.mp h s hs
      exact (firstUnbound_eq_none.mpr (by simp [hbound])).symm
  · rfl

/-- Dropping repetitions does not change which symbol is met unbound first. -/
theorem firstUnbound_foldl_note (m : Model) (l seen : List Symbol) :
    firstUnbound m (l.foldl note seen) = firstUnbound m (seen ++ l) := by
  induction l generalizing seen with
  | nil => simp
  | cons t l ih =>
    rw [List.foldl_cons, ih, firstUnbound_append, firstUnbound_note, ← firstUnbound_append,
      List.append_assoc]
    rfl

theorem firstUnbound_symbols (m : Model) (f : Formula) :
    firstUnbound m f.symbols = firstUnbound m (atoms f) := by
  rw [Formula.symbols, collectSymbols_eq_foldl, firstUnbound_foldl_note, List.nil_append]

/-- A value, unless a symbol was found that has none. -/
def valueUnless (unbound : Option Symbol) (b : Bool) : Except Unbound Bool :=
  match unbound with
  | some s => .error ⟨s⟩
  | none => .ok b

theorem evaluateRest_eq (m : Model) (op : Variadic) (acc : Bool) (fs : List Formula)
    (h : ∀ f ∈ fs, f.evaluate m = valueUnless (firstUnbound m (atoms f)) (f.holds m.assignment)) :
    Formula.evaluateRest m op acc fs =
      valueUnless (firstUnbound m (atomsEach fs))
        ((Formula.holdsEach m.assignment fs).foldl op.combine acc) := by
  induction fs generalizing acc with
  | nil => rfl
  | cons f fs ih =>
    rw [Formula.evaluateRest, atomsEach, firstUnbound_append, h f (by simp)]
    cases firstUnbound m (atoms f) with
    | some s => rfl
    | none => exact ih _ fun g hg => h g (by simp [hg])

/-- **Evaluation.** Under a model the value is that of the model's assignment,
unless an occurrence is unbound; then the first one is the error. -/
theorem evaluate_eq (f : Formula) (m : Model) :
    f.evaluate m = valueUnless (firstUnbound m (atoms f)) (f.holds m.assignment) := by
  induction f using Formula.induction with
  | atom s =>
    rw [Formula.evaluate]
    cases h : m.value? s with
    | none => simp [valueUnless, firstUnbound, atoms, Model.contains, h]
    | some b =>
      simp [valueUnless, firstUnbound, atoms, Model.contains, h, Formula.holds, Model.assignment]
  | not f ih =>
    rw [Formula.evaluate, ih, atoms]
    cases firstUnbound m (atoms f) <;> rfl
  | binary op l r ihl ihr =>
    rw [Formula.evaluate, ihl, ihr, atoms, firstUnbound_append]
    cases firstUnbound m (atoms l) <;> cases firstUnbound m (atoms r) <;> rfl
  | variadic op f fs ihf ihfs =>
    rw [Formula.evaluate, ihf, atoms, firstUnbound_append, Formula.holds, ← Variadic.foldl_combine]
    cases firstUnbound m (atoms f) with
    | some s => rfl
    | none => exact evaluateRest_eq m op _ fs ihfs

theorem evaluate_of_bound {f : Formula} {m : Model} (h : ∀ s ∈ atoms f, m.contains s = true) :
    f.evaluate m = .ok (f.holds m.assignment) := by
  rw [evaluate_eq, firstUnbound_eq_none.mpr h]
  rfl

theorem evaluate_of_unbound {f : Formula} {m : Model} {s : Symbol}
    (h : firstUnbound m (atoms f) = some s) : f.evaluate m = .error ⟨s⟩ := by
  rw [evaluate_eq, h]
  rfl

theorem evaluateComplete_of_ok {f : Formula} {m : Model} {b : Bool} (h : f.evaluate m = .ok b) :
    f.evaluateComplete m = .ok b := by
  rw [Formula.evaluateComplete, h]

theorem evaluateComplete_of_error {f : Formula} {m : Model} {s : Symbol}
    (h : f.evaluate m = .error ⟨s⟩) : f.evaluateComplete m = .error ⟨s, m⟩ := by
  rw [Formula.evaluateComplete, h]

theorem evaluateComplete_of_bound {f : Formula} {m : Model}
    (h : ∀ s ∈ atoms f, m.contains s = true) :
    f.evaluateComplete m = .ok (f.holds m.assignment) :=
  evaluateComplete_of_ok (evaluate_of_bound h)

end TruthTable.Proofs.Evaluation
