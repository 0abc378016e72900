import TruthTable.Proofs.Entailment

/-!
# Reports on a statement and on its negation

A report makes two searches under one plan, for the statement and for its negation. The
report on the negation makes the second of them first, and then one for the statement
negated twice. Leaf by leaf that is the search for the statement itself, a missing
binding included, so the two agree from any start: in the answer, and also in the number
of models visited, which depends on the order of the leaves.
-/

namespace TruthTable.Proofs.Negation

open Search Forcing Entailment

theorem evaluate_not_not (f : Formula) (m : Model) :
    (Formula.not (.not f)).evaluate m = f.evaluate m := by
  rw [Formula.evaluate, Formula.evaluate]
  cases f.evaluate m with
  | error e => rfl
  | ok b => simp [Except.map]

theorem leaf_not_not (kb target : Formula) (stop : Bool) (m : Model) :
    Checker.leaf ⟨kb, .not (.not target), stop⟩ m = Checker.leaf ⟨kb, target, stop⟩ m := by
  simp only [Checker.leaf, Formula.evaluateComplete, evaluate_not_not]

/-- A search depends on its formulas through the leaves only. -/
theorem check_of_leaf_eq {c d : Checker} (hstop : c.shortCircuit = d.shortCircuit)
    (hleaf : ∀ m, c.leaf m = d.leaf m) (remaining : List Symbol) (m : Model) (visited : Nat) :
    c.check remaining m visited = d.check remaining m visited := by
  have hleaves : c.leaf = d.leaf := funext hleaf
  rw [check_eq_scan, check_eq_scan, hstop, hleaves]

/-- The search that a report makes for a target. -/
def search (kb target : Formula) (settings : Settings) (plan : Plan) : Outcome :=
  Checker.check ⟨kb, target, settings.shortCircuit⟩ plan.free plan.forced 0

theorem search_not_not (kb target : Formula) (settings : Settings) (plan : Plan) :
    search kb (.not (.not target)) settings plan = search kb target settings plan := by
  unfold search
  apply check_of_leaf_eq
  · rfl
  · exact leaf_not_not kb target settings.shortCircuit

theorem make_eq_bind (kb statement : Formula) (settings : Settings) :
    Report.make kb statement settings =
      let plan := Plan.make kb statement settings
      let asserted := search kb statement settings plan
      let negated := search kb (.not statement) settings plan
      asserted.result >>= fun a => negated.result >>= fun b =>
        .ok ⟨.classify a b, a, b, plan, asserted.visited + negated.visited⟩ := rfl

/-- The report gives the answers of its two searches and counts what both have visited. -/
structure Summarises (kb statement : Formula) (settings : Settings) (r : Report) : Prop where
  plan_eq : r.plan = Plan.make kb statement settings
  asserted : (search kb statement settings r.plan).result = .ok r.statementEntailed
  negated : (search kb (.not statement) settings r.plan).result = .ok r.negationEntailed
  verdict_eq : r.verdict = .classify r.statementEntailed r.negationEntailed
  count_eq : r.modelsChecked =
    (search kb statement settings r.plan).visited +
      (search kb (.not statement) settings r.plan).visited

theorem summarises_of_make {kb statement : Formula} {settings : Settings} {r : Report}
    (h : Report.make kb statement settings = .ok r) : Summarises kb statement settings r := by
  rw [make_eq_bind] at h
  cases ha : (search kb statement settings (Plan.make kb statement settings)).result with
  | error e =>
    simp only [ha] at h
    cases h
  | ok a =>
    cases hn : (search kb (.not statement) settings (Plan.make kb statement settings)).result with
    | error e =>
      simp only [ha, hn] at h
      cases h
    | ok b =>
      simp only [ha, hn] at h
      cases h
      exact ⟨rfl, ha, hn, rfl, rfl⟩

/-- The verdict on the negation of a statement, from that on the statement. -/
def opposite : Verdict → Verdict
  | .definitelyTrue => .definitelyFalse
  | .definitelyFalse => .definitelyTrue
  | .unknown => .unknown
  | .inconsistent => .inconsistent

theorem classify_swap (a b : Bool) : Verdict.classify b a = opposite (Verdict.classify a b) := by
  cases a <;> cases b <;> rfl

/-- **A statement and its negation.** Under all settings both have a report. The answers
change places, so that definitely true becomes definitely false and the other way round,
while a verdict that favours neither stays. The symbols enumerated, the values forced and
the number of models visited are the same. -/
theorem make_not_opposite (kb statement : Formula) (settings : Settings) :
    ∃ r n, Report.make kb statement settings = .ok r ∧
      Report.make kb (.not statement) settings = .ok n ∧
      n.statementEntailed = r.negationEntailed ∧
      n.negationEntailed = r.statementEntailed ∧
      n.verdict = opposite r.verdict ∧
      n.plan.free = r.plan.free ∧
      n.plan.forced = r.plan.forced ∧
      n.modelsChecked = r.modelsChecked := by
  obtain ⟨r, hr, -⟩ := exists_report kb statement settings
  obtain ⟨n, hn, -⟩ := exists_report kb (.not statement) settings
  have sr := summarises_of_make hr
  have sn := summarises_of_make hn
  have hplan : n.plan = r.plan := by rw [sn.plan_eq, make_not, sr.plan_eq]
  have hstatement : n.statementEntailed = r.negationEntailed := by
    have hsame := sn.asserted
    rw [hplan, sr.negated] at hsame
    exact (Except.ok.inj hsame).symm
  have hnegation : n.negationEntailed = r.statementEntailed := by
    have hsame := sn.negated
    rw [hplan, search_not_not, sr.asserted] at hsame
    exact (Except.ok.inj hsame).symm
  refine ⟨r, n, hr, hn, hstatement, hnegation, ?_, congrArg Plan.free hplan,
    congrArg Plan.forced hplan, ?_⟩
  · rw [sn.verdict_eq, sr.verdict_eq, hstatement, hnegation, classify_swap]
  · rw [sn.count_eq, sr.count_eq, hplan, search_not_not, Nat.add_comm]

end TruthTable.Proofs.Negation
