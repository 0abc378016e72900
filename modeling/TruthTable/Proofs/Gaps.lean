import TruthTable.Proofs.Answers
import TruthTable.Proofs.Choices

/-!
# Searches that leave a symbol unbound

A symbol that is neither bound at the start nor remains to be bound is a gap: no leaf
binds it. A gap in the knowledge base is met at the first leaf. A gap in the target is
met only where the knowledge base holds, and until then every leaf has passed. So no
answer can come before the error, and whether the search may stop early plays no part.
-/

namespace TruthTable.Proofs.Gaps

open Evaluation Completion Search Answers Choices

/-- No leaf binds the symbol. -/
def Gap (remaining : List Symbol) (m : Model) (s : Symbol) : Prop :=
  s ∉ remaining ∧ m.contains s = false

instance (remaining : List Symbol) (m : Model) (s : Symbol) : Decidable (Gap remaining m s) :=
  inferInstanceAs (Decidable (_ ∧ _))

/-- The first gap among the occurrences of a formula, from left to right. -/
def firstGap (remaining : List Symbol) (m : Model) (f : Formula) : Option Symbol :=
  (atoms f).find? fun s => decide (Gap remaining m s)

theorem not_gap_iff {remaining : List Symbol} {m : Model} {s : Symbol} :
    ¬ Gap remaining m s ↔ s ∈ remaining ∨ m.contains s = true := by
  rw [Gap, not_and_or, not_not, Bool.not_eq_false]

theorem firstGap_eq_none {remaining : List Symbol} {m : Model} {f : Formula} :
    firstGap remaining m f = none ↔ Covers f remaining m := by
  simp only [firstGap, List.find?_eq_none, decide_eq_true_eq, not_gap_iff]
  rfl

theorem exists_gap_iff {remaining : List Symbol} {m : Model} {f : Formula} :
    (∃ s ∈ atoms f, Gap remaining m s) ↔ ∃ s, firstGap remaining m f = some s := by
  rw [← Option.isSome_iff_exists, firstGap, List.find?_isSome]
  simp only [decide_eq_true_eq]

theorem firstUnbound_completion {remaining : List Symbol} {m n : Model}
    (hn : n ∈ Model.completions remaining m) (f : Formula) :
    firstUnbound n (atoms f) = firstGap remaining m f := by
  have hsame : (fun s => !n.contains s) = fun s => decide (Gap remaining m s) := by
    funext s
    have hbound := contains_of_mem_completions hn s
    rw [← not_gap_iff] at hbound
    cases hc : n.contains s <;> simp_all
  rw [firstUnbound, hsame, firstGap]

variable {c : Checker} {remaining : List Symbol} {m n : Model} {s : Symbol}

theorem evaluateComplete_of_gap {f : Formula} (hn : n ∈ Model.completions remaining m)
    (h : firstGap remaining m f = some s) : f.evaluateComplete n = .error ⟨s, n⟩ := by
  rw [← firstUnbound_completion hn] at h
  exact evaluateComplete_of_error (evaluate_of_unbound h)

theorem leaf_of_kb_gap (hn : n ∈ Model.completions remaining m)
    (h : firstGap remaining m c.kb = some s) : c.leaf n = .error ⟨s, n⟩ := by
  rw [Checker.leaf, evaluateComplete_of_gap hn h]

theorem leaf_of_kb_holds (hk : Covers c.kb remaining m) (hn : n ∈ Model.completions remaining m)
    (h : c.kb.holds n.assignment = true) : c.leaf n = c.target.evaluateComplete n := by
  rw [Checker.leaf, evaluateComplete_of_bound (hk.bound hn), h]

theorem leaf_of_kb_fails (hk : Covers c.kb remaining m) (hn : n ∈ Model.completions remaining m)
    (h : ¬ c.kb.holds n.assignment = true) : c.leaf n = .ok true := by
  rw [Bool.not_eq_true] at h
  rw [Checker.leaf, evaluateComplete_of_bound (hk.bound hn), h]

/-- The knowledge base holds at some leaf if it holds at all from this start. -/
theorem exists_satisfies_iff {kb : Formula} (hk : Covers kb remaining m) :
    (∃ v, Respects v m remaining ∧ kb.holds v = true) ↔
      ∃ n ∈ Model.completions remaining m, kb.holds n.assignment = true := by
  constructor
  · rintro ⟨v, hv, hholds⟩
    obtain ⟨n, hn, ha⟩ := exists_completion remaining m v hv
    refine ⟨n, hn, ?_⟩
    rw [← hholds]
    exact (holds_congr fun s hs => ha.eq_assignment (hk.bound hn s hs)).symm
  · rintro ⟨n, hn, hholds⟩
    refine ⟨n.assignment, ?_, hholds⟩
    intro s b hs hb
    exact assignment_of_value? ((value?_of_mem_completions hn hs).trans hb)

theorem check_of_kb_gap (h : firstGap remaining m c.kb = some s) (visited : Nat) :
    c.check remaining m visited =
      ⟨.error ⟨s, chosen remaining m (List.replicate remaining.length true)⟩, visited + 1⟩ := by
  have hfirst := isFirst_trues remaining.length
  have hleaf := leaf_of_kb_gap (chosen_mem_completions hfirst.length_eq m) h
  rw [check_of_first hfirst (fun _ _ hno => absurd trivial hno) (Or.inl ⟨_, hleaf⟩), hleaf,
    rank_trues]

theorem check_of_kb_unsatisfied (hk : Covers c.kb remaining m)
    (h : ¬ ∃ v, Respects v m remaining ∧ c.kb.holds v = true) (visited : Nat) :
    c.check remaining m visited = ⟨.ok true, visited + 2 ^ remaining.length⟩ := by
  rw [exists_satisfies_iff hk] at h
  apply check_of_pass
  intro n hn
  exact leaf_of_kb_fails hk hn fun hholds => h ⟨n, hn, hholds⟩

theorem exists_first_satisfies {kb : Formula} (hk : Covers kb remaining m)
    (h : ∃ v, Respects v m remaining ∧ kb.holds v = true) :
    ∃ choices, IsFirst remaining.length (Satisfies remaining m kb) choices := by
  obtain ⟨n, hn, hholds⟩ := (exists_satisfies_iff hk).mp h
  obtain ⟨choices, hlen, rfl⟩ := mem_completions.mp hn
  exact exists_isFirst hlen ((satisfies_iff hk hlen).mpr hholds)

/-- The target is not looked at before the first leaf where the knowledge base holds. -/
theorem check_of_target_gap {choices : List Bool} (hk : Covers c.kb remaining m)
    (hs : firstGap remaining m c.target = some s)
    (hfirst : IsFirst remaining.length (Satisfies remaining m c.kb) choices) (visited : Nat) :
    c.check remaining m visited =
      ⟨.error ⟨s, chosen remaining m choices⟩, visited + (rank choices + 1)⟩ := by
  have hmem := chosen_mem_completions hfirst.length_eq m
  have hleaf : c.leaf (chosen remaining m choices) = .error ⟨s, chosen remaining m choices⟩ := by
    rw [leaf_of_kb_holds hk hmem ((satisfies_iff hk hfirst.length_eq).mp hfirst.holds)]
    exact evaluateComplete_of_gap hmem hs
  have hpass : ∀ other, other.length = remaining.length → ¬ Satisfies remaining m c.kb other →
      c.leaf (chosen remaining m other) = .ok true := by
    intro other ho hno
    rw [satisfies_iff hk ho] at hno
    exact leaf_of_kb_fails hk (chosen_mem_completions ho m) hno
  rw [check_of_first hfirst hpass (Or.inl ⟨_, hleaf⟩), hleaf]

theorem exists_error_iff (visited : Nat) :
    (∃ e, (c.check remaining m visited).result = .error e) ↔
      (∃ s ∈ atoms c.kb, Gap remaining m s) ∨
        (∃ s ∈ atoms c.target, Gap remaining m s) ∧
          ∃ v, Respects v m remaining ∧ c.kb.holds v = true := by
  rw [exists_gap_iff, exists_gap_iff]
  cases hkb : firstGap remaining m c.kb with
  | some s => simp [check_of_kb_gap hkb]
  | none =>
    have hk := firstGap_eq_none.mp hkb
    by_cases hsat : ∃ v, Respects v m remaining ∧ c.kb.holds v = true
    · cases htarget : firstGap remaining m c.target with
      | some s =>
        obtain ⟨choices, hfirst⟩ := exists_first_satisfies hk hsat
        simp [check_of_target_gap hk htarget hfirst, hsat]
      | none => simp [check_of_covers hk (firstGap_eq_none.mp htarget)]
    · simp [check_of_kb_unsatisfied hk hsat, hsat]

/-- **When a search fails for want of a binding.** It does exactly if the knowledge base
has a gap, or the target has one and some assignment with the model's values away from the
remaining symbols satisfies the knowledge base. A gap in the knowledge base is reported at
the first leaf. Otherwise the first gap of the target is reported at the first leaf that
satisfies the knowledge base, after all leaves before it were counted. If there is none,
the answer is yes. It is the same whether or not the search may stop early. -/
theorem check_meets_gap (kb target : Formula) (remaining : List Symbol) (m : Model)
    (visited : Nat) :
    (∀ stop, (∃ e, (Checker.check ⟨kb, target, stop⟩ remaining m visited).result = .error e) ↔
      (∃ s ∈ atoms kb, Gap remaining m s) ∨
        (∃ s ∈ atoms target, Gap remaining m s) ∧
          ∃ v, Respects v m remaining ∧ kb.holds v = true) ∧
    (∀ s, firstGap remaining m kb = some s → ∀ stop,
      Checker.check ⟨kb, target, stop⟩ remaining m visited =
        ⟨.error ⟨s, chosen remaining m (List.replicate remaining.length true)⟩, visited + 1⟩) ∧
    (firstGap remaining m kb = none → ∀ s, firstGap remaining m target = some s →
      (∃ v, Respects v m remaining ∧ kb.holds v = true) →
      ∃ choices, IsFirst remaining.length (Satisfies remaining m kb) choices ∧ ∀ stop,
        Checker.check ⟨kb, target, stop⟩ remaining m visited =
          ⟨.error ⟨s, chosen remaining m choices⟩, visited + (rank choices + 1)⟩) ∧
    ((∃ s ∈ atoms target, Gap remaining m s) → ∀ stop,
      (∀ e, (Checker.check ⟨kb, target, stop⟩ remaining m visited).result ≠ .error e) →
      Checker.check ⟨kb, target, stop⟩ remaining m visited =
        ⟨.ok true, visited + 2 ^ remaining.length⟩) := by
  refine ⟨fun stop => exists_error_iff visited, ?_, ?_, ?_⟩
  · intro s hs stop
    exact check_of_kb_gap hs visited
  · intro hkb s hs hsat
    have hk := firstGap_eq_none.mp hkb
    obtain ⟨choices, hfirst⟩ := exists_first_satisfies hk hsat
    exact ⟨choices, hfirst, fun stop => check_of_target_gap hk hs hfirst visited⟩
  · intro hgap stop hnone
    have hno := (not_congr (exists_error_iff (c := ⟨kb, target, stop⟩) visited)).mp
      (not_exists.mpr hnone)
    rw [not_or] at hno
    have hk : Covers kb remaining m :=
      fun s hs => not_gap_iff.mp fun hg => hno.1 ⟨s, hs, hg⟩
    exact check_of_kb_unsatisfied (c := ⟨kb, target, stop⟩) hk (fun hsat => hno.2 ⟨hgap, hsat⟩)
      visited

example :
    Checker.check ⟨.not (.atom ⟨"Open", rfl⟩), .atom ⟨"Alarm", rfl⟩, false⟩ [⟨"Open", rfl⟩] .empty 0 =
      ⟨.error ⟨⟨"Alarm", rfl⟩, .ofList [(⟨"Open", rfl⟩, false)]⟩, 2⟩ := rfl

end TruthTable.Proofs.Gaps
