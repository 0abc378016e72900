import Mathlib.Algebra.Ring.Parity
import TruthTable.Proofs.Evaluation

/-!
# Evaluation and the truth tables

The truth tables are stated here as laws of a function from formulas to truth values,
without reference to the order in which operands are looked at or to how their values
are combined. The laws leave one value to a formula whose symbols are all bound, and
evaluation gives that value. A formula with an unbound symbol has no value, also where
the operands before that symbol would settle it.
-/

namespace TruthTable.Proofs.TruthValues

open Evaluation

/-- The values of all formulas, where the model fixes those of its symbols, as the
truth tables have them. -/
structure TruthTables (m : Model) (value : Formula → Bool) : Prop where
  atom : ∀ s b, m.value? s = some b → value (.atom s) = b
  not : ∀ f, value (.not f) = true ↔ value f = false
  implies : ∀ l r, value (.binary .implies l r) = false ↔ value l = true ∧ value r = false
  iff : ∀ l r, value (.binary .iff l r) = true ↔ value l = value r
  and : ∀ f fs, value (.variadic .and f fs) = true ↔ ∀ g ∈ f :: fs, value g = true
  or : ∀ f fs, value (.variadic .or f fs) = true ↔ ∃ g ∈ f :: fs, value g = true
  xor : ∀ f fs, value (.variadic .xor f fs) = true ↔ Odd ((f :: fs).countP value)

theorem apply_implies_eq_false (a b : Bool) :
    Binary.implies.apply a b = false ↔ a = true ∧ b = false := by
  cases a <;> cases b <;> decide

theorem apply_iff_eq_true (a b : Bool) : Binary.iff.apply a b = true ↔ a = b := by
  cases a <;> cases b <;> decide

theorem apply_and_eq_true (value : Formula → Bool) (fs : List Formula) :
    Variadic.and.apply (fs.map value) = true ↔ ∀ g ∈ fs, value g = true := by
  simp [Variadic.apply]

theorem apply_or_eq_true (value : Formula → Bool) (fs : List Formula) :
    Variadic.or.apply (fs.map value) = true ↔ ∃ g ∈ fs, value g = true := by
  simp [Variadic.apply]

theorem apply_xor_eq_true (value : Formula → Bool) (fs : List Formula) :
    Variadic.xor.apply (fs.map value) = true ↔ Odd (fs.countP value) := by
  have hcount : (fs.map value).count true = fs.countP value := by
    rw [List.count, List.countP_map]
    apply List.countP_congr
    intro g _
    simp
  rw [Variadic.apply, hcount, beq_iff_eq, Nat.odd_iff]

theorem holds_variadic (op : Variadic) (f : Formula) (fs : List Formula) (v : Symbol → Bool) :
    (Formula.variadic op f fs).holds v = op.apply ((f :: fs).map (Formula.holds v)) := by
  rw [Formula.holds, Formula.holdsEach_eq_map, List.map_cons]

theorem truthTables_holds (m : Model) : TruthTables m (Formula.holds m.assignment) where
  atom s b h := by simp [Formula.holds, Model.assignment, h]
  not f := by simp [Formula.holds]
  implies l r := by rw [Formula.holds, apply_implies_eq_false]
  iff l r := by rw [Formula.holds, apply_iff_eq_true]
  and f fs := by rw [holds_variadic, apply_and_eq_true]
  or f fs := by rw [holds_variadic, apply_or_eq_true]
  xor f fs := by rw [holds_variadic, apply_xor_eq_true]

/-- The tables give a formula one value once its occurrences are bound. -/
theorem TruthTables.eq_holds {m : Model} {value : Formula → Bool} (h : TruthTables m value)
    {f : Formula} (hbound : ∀ s ∈ atoms f, m.contains s = true) :
    value f = f.holds m.assignment := by
  have hm := truthTables_holds m
  induction f using Formula.induction with
  | atom s =>
    obtain ⟨b, hb⟩ := Option.isSome_iff_exists.mp (hbound s (by simp [atoms]))
    rw [h.atom s b hb, hm.atom s b hb]
  | not f ih => rw [Bool.eq_iff_iff, h.not, hm.not, ih hbound]
  | binary op l r ihl ihr =>
    have hl := ihl fun s hs => hbound s (by simp [atoms, hs])
    have hr := ihr fun s hs => hbound s (by simp [atoms, hs])
    cases op with
    | implies =>
      have hfalse : value (.binary .implies l r) = false ↔
          (Formula.binary .implies l r).holds m.assignment = false := by
        rw [h.implies, hm.implies, hl, hr]
      rw [Bool.eq_iff_iff]
      simpa using not_congr hfalse
    | iff => rw [Bool.eq_iff_iff, h.iff, hm.iff, hl, hr]
  | variadic op f fs ihf ihfs =>
    have hall : ∀ g ∈ f :: fs, value g = g.holds m.assignment := by
      intro g hg
      have hsub : ∀ s ∈ atoms g, m.contains s = true :=
        fun s hs => hbound s (atoms_subset_atomsEach hg hs)
      rcases List.mem_cons.mp hg with rfl | hmem
      · exact ihf hsub
      · exact ihfs g hmem hsub
    have hmap : (f :: fs).map value = (f :: fs).map (Formula.holds m.assignment) :=
      List.map_congr_left hall
    rw [Bool.eq_iff_iff]
    cases op with
    | and => rw [h.and, ← apply_and_eq_true, hmap, ← holds_variadic]
    | or => rw [h.or, ← apply_or_eq_true, hmap, ← holds_variadic]
    | xor => rw [h.xor, ← apply_xor_eq_true, hmap, ← holds_variadic]

theorem evaluateComplete_eq_error_iff (f : Formula) (m : Model) :
    (∃ i, f.evaluateComplete m = .error i) ↔ ∃ s ∈ f.symbols, m.contains s = false := by
  constructor
  · rintro ⟨i, hi⟩
    by_contra hnone
    have hbound : ∀ s ∈ atoms f, m.contains s = true := by
      intro s hs
      by_contra hc
      exact hnone ⟨s, (mem_symbols f s).mpr hs, by simpa using hc⟩
    rw [evaluateComplete_of_bound hbound] at hi
    cases hi
  · rintro ⟨s, hs, hc⟩
    cases h : firstUnbound m (atoms f) with
    | none =>
      rw [firstUnbound_eq_none.mp h s ((mem_symbols f s).mp hs)] at hc
      cases hc
    | some t => exact ⟨⟨t, m⟩, evaluateComplete_of_error (evaluate_of_unbound h)⟩

/-- **Evaluation is the truth tables, or the first unbound symbol.** Where a model binds
every symbol of a formula, the value is the one that the truth tables give. Where it does
not, the error names the first of the formula's symbols that is unbound, whatever the
values of the operands before it. Only then is a model that should be complete refused. -/
theorem evaluate_truthTables (f : Formula) (m : Model) :
    (∃ value, TruthTables m value) ∧
    ((∀ s ∈ f.symbols, m.contains s = true) → ∀ value, TruthTables m value →
      f.evaluate m = .ok (value f) ∧ f.evaluateComplete m = .ok (value f)) ∧
    (∀ s, f.symbols.find? (fun t => !m.contains t) = some s →
      f.evaluate m = .error ⟨s⟩ ∧ f.evaluateComplete m = .error ⟨s, m⟩) ∧
    ((∃ i, f.evaluateComplete m = .error i) ↔ ∃ s ∈ f.symbols, m.contains s = false) := by
  refine ⟨⟨_, truthTables_holds m⟩, ?_, ?_, evaluateComplete_eq_error_iff f m⟩
  · intro hbound value hvalue
    have hatoms : ∀ s ∈ atoms f, m.contains s = true :=
      fun s hs => hbound s ((mem_symbols f s).mpr hs)
    have hok : f.evaluate m = .ok (value f) := by
      rw [evaluate_of_bound hatoms, hvalue.eq_holds hatoms]
    exact ⟨hok, evaluateComplete_of_ok hok⟩
  · intro s hs
    have hfirst : firstUnbound m (atoms f) = some s := by
      rw [← firstUnbound_symbols]
      exact hs
    have herror := evaluate_of_unbound hfirst
    exact ⟨herror, evaluateComplete_of_error herror⟩

example :
    (Formula.variadic .or (.atom ⟨"Known", rfl⟩) [.atom ⟨"Missing", rfl⟩]).evaluate
      (.ofList [(⟨"Known", rfl⟩, true)]) = .error ⟨⟨"Missing", rfl⟩⟩ := rfl

end TruthTable.Proofs.TruthValues
