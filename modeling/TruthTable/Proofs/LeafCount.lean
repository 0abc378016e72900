import TruthTable.Proofs.Answers
import TruthTable.Proofs.Choices

/-!
# Which leaves a search visits, and how many

A checker counts the leaves it visits and does not keep them. Here the same recursion is
run with the leaves kept, and their number is the checker's count. The leaves visited are
always the first so many of the enumeration: all of them if the search ran to its end, and
those up to the first counterexample if it stopped there. The checker only ever leaves out
the false branch of a symbol whose true branch has failed; that nothing is visited after a
false branch that fails follows from all levels above it together.
-/

namespace TruthTable.Proofs.LeafCount

open Evaluation Completion Search Answers Choices

/-- The answer of a search and the leaves it has visited, in order. -/
structure Trace where
  result : Except Incomplete Bool
  leaves : List Model

/-- The search of a checker, with its leaves in place of their number. -/
def trace (c : Checker) : List Symbol → Model → Trace
  | [], m => ⟨c.leaf m, [m]⟩
  | s :: rest, m =>
    let whenTrue := trace c rest (m.insert s true)
    match whenTrue.result with
    | .error _ => whenTrue
    | .ok true =>
      let whenFalse := trace c rest (m.insert s false)
      ⟨whenFalse.result, whenTrue.leaves ++ whenFalse.leaves⟩
    | .ok false =>
      if c.shortCircuit then whenTrue
      else
        let whenFalse := trace c rest (m.insert s false)
        ⟨whenFalse.result.map fun _ => false, whenTrue.leaves ++ whenFalse.leaves⟩

/-- The number of leaves kept is what the checker adds to its count. -/
theorem check_eq_trace (c : Checker) (remaining : List Symbol) (m : Model) (visited : Nat) :
    c.check remaining m visited =
      ⟨(trace c remaining m).result, visited + (trace c remaining m).leaves.length⟩ := by
  induction remaining generalizing m visited with
  | nil => rfl
  | cons s rest ih =>
    rw [Checker.check, trace, ih]
    simp only
    cases hresult : (trace c rest (m.insert s true)).result with
    | error e => simp [hresult]
    | ok b =>
      cases b with
      | true => simp [ih, Nat.add_assoc]
      | false => cases c.shortCircuit <;> simp [hresult, ih, Nat.add_assoc]

/-- With two branches, either the answer of the first is final and the search ends there, or
the leaves of both are visited, and the whole is final if the second branch is. -/
theorem trace_cons_cases (c : Checker) (s : Symbol) (rest : List Symbol) (m : Model) :
    trace c (s :: rest) m = trace c rest (m.insert s true) ∧
        Final c.shortCircuit (trace c rest (m.insert s true)).result ∨
      (trace c (s :: rest) m).leaves =
          (trace c rest (m.insert s true)).leaves ++ (trace c rest (m.insert s false)).leaves ∧
        ¬ Final c.shortCircuit (trace c rest (m.insert s true)).result ∧
        (Final c.shortCircuit (trace c rest (m.insert s false)).result →
          Final c.shortCircuit (trace c (s :: rest) m).result) := by
  rw [trace]
  cases hresult : (trace c rest (m.insert s true)).result with
  | error e => exact Or.inl ⟨rfl, Or.inl ⟨e, rfl⟩⟩
  | ok b =>
    cases b with
    | true => exact Or.inr ⟨rfl, by simp [Final], id⟩
    | false =>
      cases hstop : c.shortCircuit with
      | true => exact Or.inl ⟨rfl, Or.inr ⟨rfl, rfl⟩⟩
      | false =>
        refine Or.inr ⟨rfl, by simp [Final], ?_⟩
        rintro (⟨e, he⟩ | ⟨hs, _⟩)
        · exact Or.inl ⟨e, by simp [he, Except.map]⟩
        · cases hs

/-- A search that does not end early visits every leaf. -/
theorem leaves_of_not_final {c : Checker} {remaining : List Symbol} {m : Model}
    (h : ¬ Final c.shortCircuit (trace c remaining m).result) :
    (trace c remaining m).leaves = Model.completions remaining m := by
  induction remaining generalizing m with
  | nil => rfl
  | cons s rest ih =>
    rcases trace_cons_cases c s rest m with ⟨he, hfinal⟩ | ⟨hleaves, htrue, hfalse⟩
    · exact absurd (he ▸ hfinal) h
    · rw [hleaves, ih htrue, ih fun hf => h (hfalse hf), Model.completions]

/-- Whatever its end, a search visits the first leaves of the enumeration. -/
theorem leaves_initial (c : Checker) (remaining : List Symbol) (m : Model) :
    (trace c remaining m).leaves <+: Model.completions remaining m := by
  induction remaining generalizing m with
  | nil => exact List.prefix_rfl
  | cons s rest ih =>
    rw [Model.completions]
    rcases trace_cons_cases c s rest m with ⟨he, _⟩ | ⟨hleaves, htrue, _⟩
    · rw [he]
      exact (ih (m.insert s true)).trans (List.prefix_append _ _)
    · rw [hleaves, leaves_of_not_final htrue, List.prefix_append_right_inj]
      exact ih (m.insert s false)

theorem visited_of_not_final {c : Checker} {remaining : List Symbol} {m : Model} {visited : Nat}
    (h : ¬ Final c.shortCircuit (c.check remaining m visited).result) :
    (c.check remaining m visited).visited = visited + 2 ^ remaining.length := by
  rw [check_eq_trace] at h ⊢
  rw [leaves_of_not_final h, length_completions]

/-- The chosen model satisfies the knowledge base and not the target. -/
def Refutes (kb target : Formula) (remaining : List Symbol) (m : Model) (choices : List Bool) :
    Prop :=
  Satisfies remaining m kb choices ∧ ¬ Satisfies remaining m target choices

variable {c : Checker} {remaining : List Symbol} {m : Model} {choices : List Bool}

theorem passes_eq_false_iff {kb target : Formula} {v : Symbol → Bool} :
    passes kb target v = false ↔ kb.holds v = true ∧ ¬ target.holds v = true := by
  rw [← Bool.not_eq_true, passes_eq_true, Classical.not_imp]

theorem leaf_eq_false_iff (hk : Covers c.kb remaining m) (ht : Covers c.target remaining m)
    (hlen : choices.length = remaining.length) :
    c.leaf (chosen remaining m choices) = .ok false ↔
      Refutes c.kb c.target remaining m choices := by
  rw [leaf_of_covers hk ht (chosen_mem_completions hlen m), Except.ok.injEq, passes_eq_false_iff,
    Refutes, satisfies_iff hk hlen, satisfies_iff ht hlen]

theorem leaf_of_not_refutes (hk : Covers c.kb remaining m) (ht : Covers c.target remaining m)
    (hlen : choices.length = remaining.length)
    (h : ¬ Refutes c.kb c.target remaining m choices) :
    c.leaf (chosen remaining m choices) = .ok true := by
  rw [← leaf_eq_false_iff hk ht hlen, leaf_of_covers hk ht (chosen_mem_completions hlen m)] at h
  rw [leaf_of_covers hk ht (chosen_mem_completions hlen m)]
  simpa using h

/-- An answer of no has a first counterexample. -/
theorem exists_first_refutes (hk : Covers c.kb remaining m) (ht : Covers c.target remaining m)
    {visited : Nat} (h : (c.check remaining m visited).result = .ok false) :
    ∃ choices, IsFirst remaining.length (Refutes c.kb c.target remaining m) choices := by
  by_contra hnone
  have hpass : ∀ n ∈ Model.completions remaining m, c.leaf n = .ok true := by
    intro n hn
    obtain ⟨choices, hlen, rfl⟩ := mem_completions.mp hn
    exact leaf_of_not_refutes hk ht hlen fun hrefutes => hnone (exists_isFirst hlen hrefutes)
  rw [check_of_pass hpass] at h
  cases h

theorem check_of_first_refutes (hk : Covers c.kb remaining m) (ht : Covers c.target remaining m)
    (hstop : c.shortCircuit = true)
    (hfirst : IsFirst remaining.length (Refutes c.kb c.target remaining m) choices)
    (visited : Nat) :
    c.check remaining m visited = ⟨.ok false, visited + (rank choices + 1)⟩ := by
  have hleaf := (leaf_eq_false_iff hk ht hfirst.length_eq).mpr hfirst.holds
  rw [check_of_first hfirst (fun _ => leaf_of_not_refutes hk ht) (Or.inr ⟨hstop, hleaf⟩), hleaf]

/-- A count that ends with given choices ends with their leaf: the leaves visited are those
of the earlier choices and then this one. -/
theorem leaves_of_visited (hlen : choices.length = remaining.length)
    (h : (trace c remaining m).leaves.length = rank choices + 1) :
    ∃ earlier : List (List Bool),
      (∀ other, other ∈ earlier ↔ other.length = remaining.length ∧ Earlier other choices) ∧
      earlier.Pairwise Earlier ∧
      (trace c remaining m).leaves = (earlier ++ [choices]).map (chosen remaining m) := by
  obtain ⟨earlier, rest, hsplit⟩ := List.append_of_mem (mem_sequences.mpr hlen)
  refine ⟨earlier, mem_before_iff hsplit, pairwise_before hsplit, ?_⟩
  have htake := List.prefix_iff_eq_take.mp (leaves_initial c remaining m)
  have hcut : earlier ++ choices :: rest = (earlier ++ [choices]) ++ rest := by simp
  have hlength : (earlier ++ [choices]).length = earlier.length + 1 := by simp
  rw [htake, h, completions_eq_map, hsplit, hcut, ← List.map_take, ← length_before hsplit,
    List.take_left' hlength]

/-- **How many leaves a search visits, and which.** Let the remaining symbols and the model
cover both formulas. Then there is an answer. If it is yes, or if the search may not stop,
every leaf is visited: two to the number of remaining symbols, repetitions included. If it
is no and the search may stop, there is a first counterexample among the choices for the
remaining symbols; its leaf and those of all earlier choices are visited, in this order, and
no other leaf is. -/
theorem check_counts_leaves (kb target : Formula) (stop : Bool) (remaining : List Symbol)
    (m : Model) (visited : Nat)
    (hk : ∀ s ∈ kb.symbols, s ∈ remaining ∨ m.contains s = true)
    (ht : ∀ s ∈ target.symbols, s ∈ remaining ∨ m.contains s = true) :
    let outcome := Checker.check ⟨kb, target, stop⟩ remaining m visited
    let run := trace ⟨kb, target, stop⟩ remaining m
    outcome = ⟨run.result, visited + run.leaves.length⟩ ∧
    ∃ answer, outcome.result = .ok answer ∧
      (stop = false ∨ answer = true →
        outcome.visited = visited + 2 ^ remaining.length) ∧
      (stop = true → answer = false →
        ∃ choices, IsFirst remaining.length (Refutes kb target remaining m) choices ∧
          outcome.visited = visited + (rank choices + 1) ∧
          ∃ earlier : List (List Bool),
            (∀ other, other ∈ earlier ↔
              other.length = remaining.length ∧ Earlier other choices) ∧
            earlier.Pairwise Earlier ∧
            run.leaves = (earlier ++ [choices]).map (chosen remaining m)) := by
  intro outcome run
  have hkb : Covers kb remaining m := covers_of_symbols hk
  have htarget : Covers target remaining m := covers_of_symbols ht
  have hrun : outcome = ⟨run.result, visited + run.leaves.length⟩ :=
    check_eq_trace ⟨kb, target, stop⟩ remaining m visited
  have hresult := result_check_of_covers (c := ⟨kb, target, stop⟩) hkb htarget visited
  refine ⟨hrun, _, hresult, ?_, ?_⟩
  · intro hgoes
    apply visited_of_not_final
    rw [hresult]
    rintro (⟨e, he⟩ | ⟨hstop, hfalse⟩)
    · cases he
    · rw [Except.ok.injEq] at hfalse
      rcases hgoes with hs | ha
      · exact absurd (hstop.symm.trans hs) (by decide)
      · exact absurd (ha.symm.trans hfalse) (by decide)
  · intro hstop hfalse
    obtain ⟨choices, hfirst⟩ := exists_first_refutes (c := ⟨kb, target, stop⟩) hkb htarget
      (hresult.trans (congrArg Except.ok hfalse))
    have hcheck : outcome = ⟨.ok false, visited + (rank choices + 1)⟩ :=
      check_of_first_refutes (c := ⟨kb, target, stop⟩) hkb htarget hstop hfirst visited
    refine ⟨choices, hfirst, congrArg Outcome.visited hcheck, ?_⟩
    apply leaves_of_visited hfirst.length_eq
    have hcount := congrArg Outcome.visited (hrun.symm.trans hcheck)
    exact Nat.add_left_cancel hcount

def dry : Symbol :=
  ⟨"Dry", rfl⟩

def warm : Symbol :=
  ⟨"Warm", rfl⟩

/-- Whether `Dry` follows from `(or Dry Warm)`; the search may stop. -/
def dryOrWarm : Checker :=
  ⟨.variadic .or (.atom dry) [.atom warm], .atom dry, true⟩

/-- `Dry` remains twice, and its second choice is the one that counts: the second of eight
leaves is the first counterexample. -/
theorem check_counts_leaves_dryOrWarm :
    dryOrWarm.check [dry, warm, dry] .empty 5 = ⟨.ok false, 7⟩ ∧
    ∃ choices,
      IsFirst 3 (Refutes dryOrWarm.kb dryOrWarm.target [dry, warm, dry] .empty) choices ∧
        7 = 5 + (rank choices + 1) := by
  obtain ⟨_, answer, hanswer, _, hstops⟩ := check_counts_leaves dryOrWarm.kb dryOrWarm.target
    true [dry, warm, dry] .empty 5 (by decide) (by decide)
  obtain rfl : answer = false := (Except.ok.inj hanswer).symm
  obtain ⟨choices, hfirst, hvisited, _⟩ := hstops rfl rfl
  exact ⟨rfl, choices, hfirst, hvisited⟩

end TruthTable.Proofs.LeafCount
