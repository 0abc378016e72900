import TruthTable.Proofs.Forcing
import TruthTable.Proofs.Search
import TruthTable.Report

/-!
# What a report says about a knowledge base

The report of a check is compared with satisfiability and entailment over all
assignments of all symbols. Neither the settings nor the literals that the
knowledge base forces appear on that side, so no setting changes an answer.
-/

namespace TruthTable.Proofs.Entailment

open Evaluation Completion Forcing Search

def Satisfiable (kb : Formula) : Prop :=
  ∃ v, kb.holds v = true

/-- Every assignment that satisfies the knowledge base satisfies the target. -/
def Entails (kb target : Formula) : Prop :=
  ∀ v, kb.holds v = true → target.holds v = true

theorem holds_not (f : Formula) (v : Symbol → Bool) :
    (Formula.not f).holds v = true ↔ f.holds v = false := by
  simp [Formula.holds]

theorem entails_not_iff (kb statement : Formula) :
    Entails kb (.not statement) ↔ ∀ v, kb.holds v = true → statement.holds v = false :=
  forall_congr' fun v => imp_congr_right fun _ => holds_not statement v

theorem not_entails_iff (kb target : Formula) :
    ¬ Entails kb target ↔ ∃ v, kb.holds v = true ∧ target.holds v = false := by
  simp [Entails]

theorem not_entails_not_iff (kb statement : Formula) :
    ¬ Entails kb (.not statement) ↔ ∃ v, kb.holds v = true ∧ statement.holds v = true := by
  simp [entails_not_iff]

/-- Only a knowledge base that nothing satisfies entails a statement and its negation. -/
theorem entails_both_iff (kb statement : Formula) :
    Entails kb statement ∧ Entails kb (.not statement) ↔ ¬ Satisfiable kb := by
  rw [entails_not_iff]
  constructor
  · rintro ⟨hs, hn⟩ ⟨v, hv⟩
    have ht := hs v hv
    rw [hn v hv] at ht
    cases ht
  · intro h
    exact ⟨fun v hv => absurd ⟨v, hv⟩ h, fun v hv => absurd ⟨v, hv⟩ h⟩

theorem not_entails_not_iff_satisfiable {kb statement : Formula} (h : Entails kb statement) :
    ¬ Entails kb (.not statement) ↔ Satisfiable kb := by
  rw [← not_iff_not, not_not, ← entails_both_iff kb statement]
  exact (and_iff_right h).symm

theorem not_entails_iff_satisfiable {kb statement : Formula} (h : Entails kb (.not statement)) :
    ¬ Entails kb statement ↔ Satisfiable kb := by
  rw [← not_iff_not, not_not, ← entails_both_iff kb statement]
  exact (and_iff_left h).symm

theorem covers_kb (kb statement : Formula) (settings : Settings) :
    Covers kb (Plan.make kb statement settings).free (Plan.make kb statement settings).forced :=
  fun _ hs => plan_covers kb statement settings (Or.inl hs)

theorem covers_statement (kb statement : Formula) (settings : Settings) :
    Covers statement (Plan.make kb statement settings).free
      (Plan.make kb statement settings).forced :=
  fun _ hs => plan_covers kb statement settings (Or.inr hs)

theorem covers_negation (kb statement : Formula) (settings : Settings) :
    Covers (.not statement) (Plan.make kb statement settings).free
      (Plan.make kb statement settings).forced := by
  rw [← make_not]
  exact covers_statement kb (.not statement) settings

def planAnswers (kb target : Formula) (p : Plan) : List Bool :=
  answers kb target p.free p.forced

/-- Forcing is sound for either check: the leaves of a plan decide entailment. -/
theorem all_planAnswers_iff (kb statement target : Formula) (settings : Settings)
    (ht : Covers target (Plan.make kb statement settings).free
      (Plan.make kb statement settings).forced) :
    (planAnswers kb target (Plan.make kb statement settings)).all id = true ↔
      Entails kb target := by
  rw [planAnswers, all_answers_iff (covers_kb kb statement settings) ht]
  constructor
  · intro h v hv
    exact h v (fun s b _ hb => agrees_plan statement settings hv s b hb) hv
  · intro h v _ hv
    exact h v hv

/-- The report in full, from what the leaves answer for both targets. -/
theorem make_eq (kb statement : Formula) (settings : Settings) :
    Report.make kb statement settings =
      let plan := Plan.make kb statement settings
      let asserted := planAnswers kb statement plan
      let negated := planAnswers kb (.not statement) plan
      .ok ⟨.classify (asserted.all id) (negated.all id), asserted.all id, negated.all id, plan,
        visits settings.shortCircuit asserted + visits settings.shortCircuit negated⟩ := by
  have hk := covers_kb kb statement settings
  have ha := check_of_covers (c := ⟨kb, statement, settings.shortCircuit⟩) hk
    (covers_statement kb statement settings) 0
  have hn := check_of_covers (c := ⟨kb, .not statement, settings.shortCircuit⟩) hk
    (covers_negation kb statement settings) 0
  rw [Nat.zero_add] at ha hn
  simp only [Report.make, ha, hn]
  rfl

theorem entails_eq (kb statement : Formula) :
    kb.entails statement = .ok ((planAnswers kb statement (Plan.make kb statement {})).all id) := by
  have h := check_of_covers (c := ⟨kb, statement, true⟩) (covers_kb kb statement {})
    (covers_statement kb statement {}) 0
  rw [Formula.entails, Formula.entailsOver, h]
  rfl

theorem entails_eq_true_iff (kb target : Formula) :
    kb.entails target = .ok true ↔ Entails kb target := by
  have hcovers := covers_statement kb target {}
  rw [entails_eq, Except.ok.injEq]
  exact all_planAnswers_iff kb target target {} hcovers

/-- There is a report, and it says what is entailed. -/
theorem exists_report (kb statement : Formula) (settings : Settings) :
    ∃ r, Report.make kb statement settings = .ok r ∧
      r.verdict = .classify r.statementEntailed r.negationEntailed ∧
      (r.statementEntailed = true ↔ Entails kb statement) ∧
      (r.negationEntailed = true ↔ Entails kb (.not statement)) := by
  have hs := covers_statement kb statement settings
  have hn := covers_negation kb statement settings
  exact ⟨_, make_eq kb statement settings, rfl,
    all_planAnswers_iff kb statement statement settings hs,
    all_planAnswers_iff kb statement (.not statement) settings hn⟩

/-- The stand-alone check gives the answer of a plan made under any settings. -/
theorem entails_eq_planAnswers (kb statement target : Formula) (settings : Settings)
    (ht : Covers target (Plan.make kb statement settings).free
      (Plan.make kb statement settings).forced) :
    kb.entails target =
      .ok ((planAnswers kb target (Plan.make kb statement settings)).all id) := by
  rw [entails_eq]
  congr 1
  rw [Bool.eq_iff_iff, all_planAnswers_iff kb target target {} (covers_statement kb target {}),
    all_planAnswers_iff kb statement target settings ht]

theorem classify_eq_inconsistent (a b : Bool) :
    Verdict.classify a b = .inconsistent ↔ a = true ∧ b = true := by
  cases a <;> cases b <;> decide

theorem classify_eq_definitelyTrue (a b : Bool) :
    Verdict.classify a b = .definitelyTrue ↔ a = true ∧ ¬ b = true := by
  cases a <;> cases b <;> decide

theorem classify_eq_definitelyFalse (a b : Bool) :
    Verdict.classify a b = .definitelyFalse ↔ ¬ a = true ∧ b = true := by
  cases a <;> cases b <;> decide

theorem classify_eq_unknown (a b : Bool) :
    Verdict.classify a b = .unknown ↔ ¬ a = true ∧ ¬ b = true := by
  cases a <;> cases b <;> decide

/-- **Correctness of a check.** Under all settings there is a report. Its verdict
says how the assignments that satisfy the knowledge base stand to the statement,
and both of its answers are those of the stand-alone check and of entailment. -/
theorem make_decides (kb statement : Formula) (settings : Settings) :
    ∃ r, Report.make kb statement settings = .ok r ∧
      (r.verdict = .inconsistent ↔ ¬ ∃ v, kb.holds v = true) ∧
      (r.verdict = .definitelyTrue ↔
        (∃ v, kb.holds v = true) ∧ ∀ v, kb.holds v = true → statement.holds v = true) ∧
      (r.verdict = .definitelyFalse ↔
        (∃ v, kb.holds v = true) ∧ ∀ v, kb.holds v = true → statement.holds v = false) ∧
      (r.verdict = .unknown ↔
        (∃ v, kb.holds v = true ∧ statement.holds v = true) ∧
          ∃ v, kb.holds v = true ∧ statement.holds v = false) ∧
      kb.entails statement = .ok r.statementEntailed ∧
      kb.entails (.not statement) = .ok r.negationEntailed ∧
      (r.statementEntailed = true ↔ ∀ v, kb.holds v = true → statement.holds v = true) ∧
      (r.negationEntailed = true ↔
        ∀ v, kb.holds v = true → (Formula.not statement).holds v = true) := by
  have hs := all_planAnswers_iff kb statement statement settings
    (covers_statement kb statement settings)
  have hn := all_planAnswers_iff kb statement (.not statement) settings
    (covers_negation kb statement settings)
  refine ⟨_, make_eq kb statement settings, ?_, ?_, ?_, ?_,
    entails_eq_planAnswers kb statement statement settings (covers_statement kb statement settings),
    entails_eq_planAnswers kb statement (.not statement) settings
      (covers_negation kb statement settings), hs, hn⟩
  · rw [classify_eq_inconsistent, hs, hn]
    exact entails_both_iff kb statement
  · rw [classify_eq_definitelyTrue, hs, hn, and_comm]
    exact and_congr_left not_entails_not_iff_satisfiable
  · rw [classify_eq_definitelyFalse, hs, hn, ← entails_not_iff]
    exact and_congr_left not_entails_iff_satisfiable
  · rw [classify_eq_unknown, hs, hn, not_entails_iff, not_entails_not_iff]
    exact and_comm

end TruthTable.Proofs.Entailment
