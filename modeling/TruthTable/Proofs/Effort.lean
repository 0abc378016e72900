import TruthTable.Proofs.Entailment

/-!
# How many models a check visits

A pass that may stop visits the leaves up to the first failure, so its length is
the rank of that failure in the order of enumeration. Forcing literals keeps, of
all assignments in that order, those with the forced values. A failure satisfies
the knowledge base and therefore has the forced values, so it is never dropped
and can only move forward. A literal stated both ways is no special case: then
nothing satisfies the knowledge base and there is no failure to lose.
-/

namespace TruthTable.Proofs.Effort

open Evaluation Completion Forcing Search Entailment

/-- Dropping entries that the test does not hit brings the first hit forward. -/
theorem findIdx_filter_le {α : Type} (p q : α → Bool) (l : List α)
    (h : ∀ a ∈ l, p a = true → q a = true) : (l.filter q).findIdx p ≤ l.findIdx p := by
  induction l with
  | nil => exact Nat.le_refl _
  | cons a l ih =>
    have ih := ih fun b hb => h b (by simp [hb])
    cases hp : p a with
    | true => simp [h a (by simp) hp, List.findIdx_cons, hp]
    | false =>
      cases hq : q a with
      | true => simpa [List.filter_cons, hq, List.findIdx_cons, hp] using ih
      | false =>
        simp only [List.filter_cons, hq, List.findIdx_cons, hp, cond_false]
        exact Nat.le_succ_of_le ih

/-- Dropping leaves that pass never lengthens a pass. -/
theorem visits_filter_le {α : Type} (stop : Bool) (p q : α → Bool) (l : List α)
    (h : ∀ a ∈ l, p a = false → q a = true) :
    visits stop ((l.filter q).map p) ≤ visits stop (l.map p) := by
  have hlen : (l.filter q).length ≤ l.length := List.length_filter_le q l
  cases stop with
  | false => simpa only [visits, Bool.false_eq_true, ↓reduceIte, List.length_map] using hlen
  | true =>
    have hidx : (l.filter q).findIdx (fun a => !p a) ≤ l.findIdx (fun a => !p a) := by
      apply findIdx_filter_le
      intro a ha hp
      exact h a ha (by simpa using hp)
    simp only [visits, ↓reduceIte, List.length_map, List.findIdx_map, Function.comp_def]
    omega

/-- The leaves of a plan are those of the enumeration of all symbols that have the
forced values, in the same order. -/
theorem tried_plan (kb statement : Formula) (settings : Settings) :
    tried (Plan.make kb statement settings).free (Plan.make kb statement settings).forced =
      (tried (allSymbols kb statement) Model.empty).filter
        (keeps (Plan.make kb statement settings).forced (allSymbols kb statement)) := by
  rw [free_make]
  symm
  apply filter_keeps_tried _ (nodup_allSymbols kb statement)
  intro s
  split
  · rfl
  · rename_i h
    rw [assignment_of_not_contains (m := Model.empty) rfl]
    cases hc : (Plan.make kb statement settings).forced.contains s with
    | true => exact absurd ⟨mem_allSymbols_of_forced hc, hc⟩ h
    | false => exact assignment_of_not_contains hc

/-- Whatever is forced, a plan costs no more than the enumeration of all symbols. -/
theorem visits_plan_le (kb statement target : Formula) (settings : Settings) (stop : Bool) :
    visits stop (planAnswers kb target (Plan.make kb statement settings)) ≤
      visits stop (answers kb target (allSymbols kb statement) Model.empty) := by
  rw [planAnswers, answers, answers, tried_plan]
  apply visits_filter_le
  intro v _ hv
  have hkb : kb.holds v = true := by
    by_contra hne
    simp [passes, hne] at hv
  exact keeps_of_agrees (agrees_plan statement settings hkb) _

theorem make_of_forcing (kb statement : Formula) {c d : Settings}
    (h : c.literalForcing = d.literalForcing) :
    Plan.make kb statement c = Plan.make kb statement d := by
  unfold Plan.make
  rw [h]

theorem visits_forcing_le (kb statement target : Formula) {c d : Settings} (stop : Bool)
    (h : d.literalForcing = true → c.literalForcing = true) :
    visits stop (planAnswers kb target (Plan.make kb statement c)) ≤
      visits stop (planAnswers kb target (Plan.make kb statement d)) := by
  cases hd : d.literalForcing with
  | true => exact Nat.le_of_eq (by rw [make_of_forcing kb statement ((h hd).trans hd.symm)])
  | false =>
    obtain ⟨hfree, hforced⟩ := free_of_not_forcing kb statement hd
    rw [planAnswers.eq_def kb target (Plan.make kb statement d), hfree, hforced]
    exact visits_plan_le kb statement target c stop

theorem visits_stop_le {stop stop' : Bool} (h : stop' = true → stop = true)
    (answers : List Bool) : visits stop answers ≤ visits stop' answers := by
  cases stop' with
  | true => exact Nat.le_of_eq (by rw [h rfl])
  | false => exact visits_le_length stop answers

theorem visits_settings_le (kb statement target : Formula) {c d : Settings}
    (hforcing : d.literalForcing = true → c.literalForcing = true)
    (hstop : d.shortCircuit = true → c.shortCircuit = true) :
    visits c.shortCircuit (planAnswers kb target (Plan.make kb statement c)) ≤
      visits d.shortCircuit (planAnswers kb target (Plan.make kb statement d)) :=
  calc visits c.shortCircuit (planAnswers kb target (Plan.make kb statement c))
    _ ≤ visits c.shortCircuit (planAnswers kb target (Plan.make kb statement d)) :=
        visits_forcing_le kb statement target c.shortCircuit hforcing
    _ ≤ visits d.shortCircuit (planAnswers kb target (Plan.make kb statement d)) :=
        visits_stop_le hstop _

theorem visits_le_pow (stop : Bool) (kb target : Formula) (p : Plan) :
    visits stop (planAnswers kb target p) ≤ 2 ^ p.free.length := by
  rw [← length_answers kb target p.free p.forced]
  exact visits_le_length stop _

/-- **Optimisations never cost models.** Where all that is enabled in one check is
enabled in another, the other visits no more models. With at most 62 symbols
enumerated both totals fit in 64 bits. -/
theorem modelsChecked_le (kb statement : Formula) (c d : Settings)
    (hforcing : d.literalForcing = true → c.literalForcing = true)
    (hstop : d.shortCircuit = true → c.shortCircuit = true) :
    ∃ r r', Report.make kb statement c = .ok r ∧ Report.make kb statement d = .ok r' ∧
      r.modelsChecked ≤ r'.modelsChecked ∧
      (r'.plan.free.length ≤ 62 → r'.modelsChecked < 2 ^ 64) := by
  refine ⟨_, _, make_eq kb statement c, make_eq kb statement d, ?_, ?_⟩
  · exact Nat.add_le_add (visits_settings_le kb statement statement hforcing hstop)
      (visits_settings_le kb statement (.not statement) hforcing hstop)
  · intro hfree
    have ha := visits_le_pow d.shortCircuit kb statement (Plan.make kb statement d)
    have hn := visits_le_pow d.shortCircuit kb (.not statement) (Plan.make kb statement d)
    have hp : 2 ^ (Plan.make kb statement d).free.length ≤ 2 ^ 62 :=
      Nat.pow_le_pow_right (by decide) hfree
    dsimp only
    omega

/-- `(and (or A B) (not A))`: the literal comes last, its symbol first. -/
def literalLast : Formula :=
  .variadic .and (.variadic .or (.atom ⟨"A", by decide⟩) [.atom ⟨"B", by decide⟩])
    [.not (.atom ⟨"A", by decide⟩)]

/-- Stopping is on in both checks, forcing in one. -/
theorem modelsChecked_le_literalLast :
    ∃ r r', Report.make literalLast (.atom ⟨"B", by decide⟩) ⟨true, true⟩ = .ok r ∧
      Report.make literalLast (.atom ⟨"B", by decide⟩) ⟨false, true⟩ = .ok r' ∧
      r.modelsChecked ≤ r'.modelsChecked ∧ r'.modelsChecked < 2 ^ 64 := by
  obtain ⟨r, r', hr, hr', hle, hbound⟩ := modelsChecked_le literalLast (.atom ⟨"B", by decide⟩)
    ⟨true, true⟩ ⟨false, true⟩ (by decide) (by decide)
  refine ⟨r, r', hr, hr', hle, hbound ?_⟩
  obtain rfl := Except.ok.inj hr'
  decide

end TruthTable.Proofs.Effort
