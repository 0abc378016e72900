import TruthTable.Checker
import TruthTable.Proofs.Completion
import TruthTable.Proofs.Evaluation

/-!
# The search as one pass over its leaves

The checker branches, but what it answers and how many models it visits are those
of one pass over its leaves from left to right, which stops at the first error
and, when it may, at the first failure. Where the model and the remaining symbols
cover both formulas no leaf is an error, and the answer is entailment over all
assignments that keep what the model fixes.
-/

namespace TruthTable.Proofs.Search

open Evaluation Completion

/-- Go on after an outcome. An error is final; a failure is final if the search
may stop, and otherwise stays the answer of what follows. -/
def after (stop : Bool) (first : Outcome) (next : Nat → Outcome) : Outcome :=
  match first.result with
  | .error _ => first
  | .ok true => next first.visited
  | .ok false =>
    if stop then first
    else ⟨(next first.visited).result.map fun _ => false, (next first.visited).visited⟩

theorem after_assoc (stop : Bool) (first : Outcome) (second third : Nat → Outcome) :
    after stop (after stop first second) third =
      after stop first fun n => after stop (second n) third := by
  obtain ⟨result, visited⟩ := first
  rcases result with e | b
  · rfl
  cases b with
  | true => rfl
  | false =>
    cases stop with
    | true => rfl
    | false =>
      simp only [after, Bool.false_eq_true, ↓reduceIte]
      generalize second visited = middle
      obtain ⟨result, visited⟩ := middle
      rcases result with e | b
      · rfl
      · simp only [Except.map]
        cases b <;> cases (third visited).result <;> rfl

theorem after_pass (stop : Bool) (first : Outcome) :
    after stop first (fun n => ⟨.ok true, n⟩) = first := by
  obtain ⟨result, visited⟩ := first
  rcases result with e | b
  · rfl
  · cases b <;> cases stop <;> rfl

/-- One pass over the answers of the leaves; each counts as visited. -/
def scan (stop : Bool) : List (Except Incomplete Bool) → Nat → Outcome
  | [], visited => ⟨.ok true, visited⟩
  | answer :: answers, visited => after stop ⟨answer, visited + 1⟩ (scan stop answers)

theorem scan_append (stop : Bool) (xs ys : List (Except Incomplete Bool)) (visited : Nat) :
    scan stop (xs ++ ys) visited = after stop (scan stop xs visited) (scan stop ys) := by
  induction xs generalizing visited with
  | nil => rfl
  | cons x xs ih =>
    rw [List.cons_append, scan, scan, after_assoc]
    congr 1
    funext n
    exact ih n

theorem scan_of_pass {stop : Bool} {passed rest : List (Except Incomplete Bool)}
    (h : ∀ answer ∈ passed, answer = .ok true) (visited : Nat) :
    scan stop (passed ++ rest) visited = scan stop rest (visited + passed.length) := by
  induction passed generalizing visited with
  | nil => rfl
  | cons answer passed ih =>
    rw [List.cons_append, scan, h answer (by simp)]
    have hrest := ih (fun other ho => h other (by simp [ho])) (visited + 1)
    rw [Nat.add_right_comm] at hrest
    exact hrest

theorem check_cons (c : Checker) (s : Symbol) (rest : List Symbol) (m : Model) (visited : Nat) :
    c.check (s :: rest) m visited =
      after c.shortCircuit (c.check rest (m.insert s true) visited)
        (c.check rest (m.insert s false)) := rfl

/-- **Branching is a pass over the completions.** -/
theorem check_eq_scan (c : Checker) (remaining : List Symbol) (m : Model) (visited : Nat) :
    c.check remaining m visited =
      scan c.shortCircuit ((Model.completions remaining m).map c.leaf) visited := by
  induction remaining generalizing m visited with
  | nil => exact (after_pass c.shortCircuit ⟨c.leaf m, visited + 1⟩).symm
  | cons s rest ih =>
    rw [check_cons, Model.completions, List.map_append, scan_append, ih]
    congr 1
    funext n
    exact ih (m.insert s false) n

/-- How many leaves a pass visits: all of them, or those up to the first failure. -/
def visits (stop : Bool) (answers : List Bool) : Nat :=
  if stop then min answers.length (answers.findIdx (!·) + 1) else answers.length

theorem visits_le_length (stop : Bool) (answers : List Bool) :
    visits stop answers ≤ answers.length := by
  unfold visits
  split
  · exact Nat.min_le_left _ _
  · exact Nat.le_refl _

theorem visits_cons_true (stop : Bool) (answers : List Bool) :
    visits stop (true :: answers) = visits stop answers + 1 := by
  cases stop with
  | true => simp [visits, List.findIdx_cons, Nat.add_min_add_right]
  | false => simp [visits]

theorem scan_ok (stop : Bool) (answers : List Bool) (visited : Nat) :
    scan stop (answers.map .ok) visited =
      ⟨.ok (answers.all id), visited + visits stop answers⟩ := by
  induction answers generalizing visited with
  | nil => cases stop <;> rfl
  | cons b answers ih =>
    cases b with
    | true =>
      rw [List.map_cons, scan, visits_cons_true, Nat.add_comm (visits stop answers), ← Nat.add_assoc]
      exact ih (visited + 1)
    | false =>
      rw [List.map_cons, scan]
      cases stop with
      | true => simp [after, visits, List.findIdx_cons]
      | false =>
        have h := ih (visited + 1)
        simp only [after, Bool.false_eq_true, ↓reduceIte, h]
        simp [visits, Except.map, Nat.add_right_comm, Nat.add_assoc]

/-- Nothing is said against the target where the knowledge base fails. -/
def passes (kb target : Formula) (v : Symbol → Bool) : Bool :=
  !kb.holds v || target.holds v

theorem passes_eq_true {kb target : Formula} {v : Symbol → Bool} :
    passes kb target v = true ↔ (kb.holds v = true → target.holds v = true) := by
  cases h : kb.holds v <;> simp [passes, h]

def answers (kb target : Formula) (remaining : List Symbol) (m : Model) : List Bool :=
  (tried remaining m).map (passes kb target)

theorem length_answers (kb target : Formula) (remaining : List Symbol) (m : Model) :
    (answers kb target remaining m).length = 2 ^ remaining.length := by
  rw [answers, List.length_map, length_tried]

/-- Every occurrence in a formula is bound or remains to be bound. -/
def Covers (f : Formula) (remaining : List Symbol) (m : Model) : Prop :=
  ∀ s ∈ atoms f, s ∈ remaining ∨ m.contains s = true

theorem Covers.bound {f : Formula} {remaining : List Symbol} {m n : Model}
    (h : Covers f remaining m) (hn : n ∈ Model.completions remaining m) :
    ∀ s ∈ atoms f, n.contains s = true :=
  fun s hs => (contains_of_mem_completions hn s).mpr (h s hs)

theorem leaf_of_covers {c : Checker} {remaining : List Symbol} {m n : Model}
    (hk : Covers c.kb remaining m) (ht : Covers c.target remaining m)
    (hn : n ∈ Model.completions remaining m) :
    c.leaf n = .ok (passes c.kb c.target n.assignment) := by
  rw [Checker.leaf, evaluateComplete_of_bound (hk.bound hn),
    evaluateComplete_of_bound (ht.bound hn)]
  cases h : c.kb.holds n.assignment <;> simp [passes, h]

/-- **The search, given cover.** It answers whether every leaf passes, and visits
the leaves up to the first that does not, or all. -/
theorem check_of_covers {c : Checker} {remaining : List Symbol} {m : Model}
    (hk : Covers c.kb remaining m) (ht : Covers c.target remaining m) (visited : Nat) :
    c.check remaining m visited =
      ⟨.ok ((answers c.kb c.target remaining m).all id),
        visited + visits c.shortCircuit (answers c.kb c.target remaining m)⟩ := by
  have hleaf : (Model.completions remaining m).map c.leaf =
      (answers c.kb c.target remaining m).map .ok := by
    rw [answers, tried, List.map_map, List.map_map]
    apply List.map_congr_left
    intro n hn
    exact leaf_of_covers hk ht hn
  rw [check_eq_scan, hleaf, scan_ok]

/-- The assignments tried stand for all that keep the model's values away from the
remaining symbols. -/
theorem all_answers_iff {kb target : Formula} {remaining : List Symbol} {m : Model}
    (hk : Covers kb remaining m) (ht : Covers target remaining m) :
    (answers kb target remaining m).all id = true ↔
      ∀ v : Symbol → Bool, (∀ s b, s ∉ remaining → m.value? s = some b → v s = b) →
        kb.holds v = true → target.holds v = true := by
  rw [answers, tried, List.map_map, List.all_map, List.all_eq_true]
  constructor
  · intro h v hv hkb
    obtain ⟨n, hn, ha⟩ := exists_completion remaining m v hv
    have ek : kb.holds v = kb.holds n.assignment :=
      holds_congr fun s hs => ha.eq_assignment (hk.bound hn s hs)
    have et : target.holds v = target.holds n.assignment :=
      holds_congr fun s hs => ha.eq_assignment (ht.bound hn s hs)
    rw [et]
    exact passes_eq_true.mp (h n hn) (ek ▸ hkb)
  · intro h n hn
    apply passes_eq_true.mpr
    apply h
    intro s b hs hb
    exact assignment_of_value? ((value?_of_mem_completions hn hs).trans hb)

end TruthTable.Proofs.Search
