import Mathlib.Algebra.Group.Nat.Defs
import Mathlib.Logic.Function.Basic
import TruthTable.Model

/-!
# Completions of a model

A completion binds the listed symbols both ways on top of a model. Completions
are seen here through the assignments they stand for, in order: every assignment
that respects what the model keeps is among them up to the symbols bound, and
fixing some of the listed symbols beforehand leaves exactly the assignments that
have the fixed values, in the same order.
-/

namespace TruthTable.Proofs.Completion

/-- The assignment gives every bound symbol its bound value. -/
def Agrees (v : Symbol → Bool) (m : Model) : Prop :=
  ∀ s b, m.value? s = some b → v s = b

theorem agrees_empty (v : Symbol → Bool) : Agrees v Model.empty := by
  intro s b h
  cases h

theorem assignment_of_value? {m : Model} {s : Symbol} {b : Bool} (h : m.value? s = some b) :
    m.assignment s = b := by
  simp [Model.assignment, h]

theorem assignment_of_not_contains {m : Model} {s : Symbol} (h : m.contains s = false) :
    m.assignment s = false := by
  have hn : m.value? s = none := by simpa [Model.contains] using h
  simp [Model.assignment, hn]

theorem Agrees.eq_assignment {v : Symbol → Bool} {m : Model} (h : Agrees v m) {s : Symbol}
    (hs : m.contains s = true) : v s = m.assignment s := by
  obtain ⟨b, hb⟩ := Option.isSome_iff_exists.mp hs
  rw [h s b hb, assignment_of_value? hb]

theorem assignment_insert (m : Model) (s : Symbol) (b : Bool) :
    (m.insert s b).assignment = Function.update m.assignment s b := by
  funext t
  by_cases h : t = s
  · subst h
    simp [Model.assignment]
  · simp [Model.assignment, h]

theorem contains_insert (m : Model) (s t : Symbol) (b : Bool) :
    (m.insert s b).contains t = true ↔ t = s ∨ m.contains t = true := by
  by_cases h : t = s <;> simp [Model.contains, h]

theorem length_completions (l : List Symbol) (m : Model) :
    (Model.completions l m).length = 2 ^ l.length := by
  induction l generalizing m with
  | nil => rfl
  | cons s l ih =>
    rw [Model.completions, List.length_append, ih, ih, List.length_cons, Nat.pow_succ]
    omega

theorem contains_of_mem_completions {l : List Symbol} {m n : Model}
    (h : n ∈ Model.completions l m) (s : Symbol) :
    n.contains s = true ↔ s ∈ l ∨ m.contains s = true := by
  induction l generalizing m with
  | nil =>
    obtain rfl := List.mem_singleton.mp h
    simp
  | cons t l ih =>
    rw [Model.completions, List.mem_append] at h
    rcases h with h | h <;>
      rw [ih h, contains_insert, List.mem_cons, or_left_comm, or_assoc]

theorem value?_of_mem_completions {l : List Symbol} {m n : Model}
    (h : n ∈ Model.completions l m) {s : Symbol} (hs : s ∉ l) : n.value? s = m.value? s := by
  induction l generalizing m with
  | nil => rw [List.mem_singleton.mp h]
  | cons t l ih =>
    rw [List.mem_cons, not_or] at hs
    rw [Model.completions, List.mem_append] at h
    rcases h with h | h <;>
      rw [ih h hs.2, Model.value?_insert, if_neg hs.1]

/-- **Every assignment is met.** An assignment that has the model's values away
from the listed symbols agrees with one of the completions. -/
theorem exists_completion (l : List Symbol) (m : Model) (v : Symbol → Bool)
    (h : ∀ s b, s ∉ l → m.value? s = some b → v s = b) :
    ∃ n ∈ Model.completions l m, Agrees v n := by
  induction l generalizing m with
  | nil => exact ⟨m, by simp [Model.completions], fun s b => h s b (by simp)⟩
  | cons t l ih =>
    obtain ⟨n, hn, ha⟩ := ih (m.insert t (v t)) (by
      intro s b hs hb
      rw [Model.value?_insert] at hb
      split at hb
      · rename_i he
        rw [he]
        exact Option.some.inj hb
      · rename_i he
        exact h s b (by simp [he, hs]) hb)
    refine ⟨n, ?_, ha⟩
    rw [Model.completions, List.mem_append]
    cases hv : v t with
    | true => exact Or.inl (hv ▸ hn)
    | false => exact Or.inr (hv ▸ hn)

/-- The assignments that a search tries, in its order. -/
def tried (l : List Symbol) (m : Model) : List (Symbol → Bool) :=
  (Model.completions l m).map Model.assignment

theorem length_tried (l : List Symbol) (m : Model) : (tried l m).length = 2 ^ l.length := by
  rw [tried, List.length_map, length_completions]

theorem tried_cons (s : Symbol) (l : List Symbol) (m : Model) :
    tried (s :: l) m = tried l (m.insert s true) ++ tried l (m.insert s false) := by
  simp [tried, Model.completions]

theorem apply_of_mem_tried {l : List Symbol} {m : Model} {v : Symbol → Bool}
    (h : v ∈ tried l m) {s : Symbol} (hs : s ∉ l) : v s = m.assignment s := by
  obtain ⟨n, hn, rfl⟩ := List.mem_map.mp h
  rw [Model.assignment, value?_of_mem_completions hn hs, Model.assignment]

/-- Whether an assignment has the values that a model fixes among listed symbols. -/
def keeps (fixed : Model) (l : List Symbol) (v : Symbol → Bool) : Bool :=
  l.all fun s => !fixed.contains s || v s == fixed.assignment s

theorem keeps_of_agrees {fixed : Model} {v : Symbol → Bool} (h : Agrees v fixed)
    (l : List Symbol) : keeps fixed l v = true := by
  rw [keeps, List.all_eq_true]
  intro s _
  cases hs : fixed.contains s with
  | false => rfl
  | true => simp [h.eq_assignment hs]

theorem filter_keeps_cons (fixed : Model) {s : Symbol} {l : List Symbol} (hs : s ∉ l)
    (m : Model) (b : Bool) :
    (tried l (m.insert s b)).filter (keeps fixed (s :: l)) =
      if fixed.contains s = true ∧ b ≠ fixed.assignment s then []
      else (tried l (m.insert s b)).filter (keeps fixed l) := by
  have hb : ∀ v ∈ tried l (m.insert s b), v s = b := by
    intro v hv
    rw [apply_of_mem_tried hv hs, assignment_insert, Function.update_self]
  split
  · rename_i h
    rw [List.filter_eq_nil_iff]
    intro v hv
    simp [keeps, hb v hv, h.1, h.2]
  · rename_i h
    apply List.filter_congr
    intro v hv
    have hd : (!fixed.contains s || b == fixed.assignment s) = true := by
      cases hc : fixed.contains s <;> simp_all
    rw [keeps, List.all_cons, hb v hv, hd, Bool.true_and, keeps]

/-- **Fixing values keeps the order.** Of the assignments tried over distinct
symbols, those with the fixed values are the ones tried over the other symbols,
from a start where the fixed ones already have their values. -/
theorem filter_keeps_tried (fixed : Model) {l : List Symbol} (hl : l.Nodup) (m n : Model)
    (hn : ∀ s, n.assignment s =
      if s ∈ l ∧ fixed.contains s = true then fixed.assignment s else m.assignment s) :
    (tried l m).filter (keeps fixed l) = tried (l.filter fun s => !fixed.contains s) n := by
  induction l generalizing m n with
  | nil =>
    have he : n.assignment = m.assignment := by
      funext s
      simpa using hn s
    simp [tried, Model.completions, keeps, he]
  | cons t l ih =>
    obtain ⟨ht, hl⟩ := List.nodup_cons.mp hl
    rw [tried_cons, List.filter_append, filter_keeps_cons fixed ht, filter_keeps_cons fixed ht]
    cases hc : fixed.contains t with
    | true =>
      have hstep : (tried l (m.insert t (fixed.assignment t))).filter (keeps fixed l) =
          tried (l.filter fun s => !fixed.contains s) n := by
        apply ih hl
        intro s
        rw [hn s, assignment_insert]
        by_cases hs : s = t
        · subst hs
          simp [hc, ht]
        · simp [hs]
      cases hb : fixed.assignment t <;> rw [hb] at hstep <;> simp [hc, hstep]
    | false =>
      have hstep : ∀ b, (tried l (m.insert t b)).filter (keeps fixed l) =
          tried (l.filter fun s => !fixed.contains s) (n.insert t b) := by
        intro b
        apply ih hl
        intro s
        rw [assignment_insert, assignment_insert]
        by_cases hs : s = t
        · subst hs
          simp [hc]
        · simp [hs, hn s]
      simp [hc, hstep, tried_cons]

end TruthTable.Proofs.Completion
