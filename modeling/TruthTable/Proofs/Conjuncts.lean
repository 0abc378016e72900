import TruthTable.Proofs.Entailment

/-!
# Knowledge bases as sets of conjuncts

A report on a conjunction depends on which conjuncts are stated, not on their order
or on how often they are, and more conjuncts never take back an answer. The runs
compared may have little in common: which literals are forced, which of two opposite
ones wins and the order of enumeration all follow the list of conjuncts. What they
share is entailment over all assignments, so every law here is one of entailment
first and is then carried over to the answers.
-/

namespace TruthTable.Proofs.Conjuncts

open Forcing Entailment

theorem entails_conjunct {f g : Formula} {fs : List Formula} (h : g ∈ f :: fs) :
    Entails (.variadic .and f fs) g := by
  intro v hv
  exact (holds_and f fs v).mp hv g h

/-- What entails every conjunct entails what follows from the conjunction. -/
theorem entails_cut {kb target f : Formula} {fs : List Formula}
    (h : Entails (.variadic .and f fs) target) (hall : ∀ g ∈ f :: fs, Entails kb g) :
    Entails kb target := by
  intro v hv
  apply h v
  rw [holds_and]
  intro g hg
  exact hall g hg v hv

theorem entails_of_subset {target f g : Formula} {fs gs : List Formula}
    (h : Entails (.variadic .and f fs) target) (hsub : f :: fs ⊆ g :: gs) :
    Entails (.variadic .and g gs) target := by
  apply entails_cut h
  intro p hp
  exact entails_conjunct (hsub hp)

theorem entails_iff_of_mem_iff {f g : Formula} {fs gs : List Formula}
    (hsame : ∀ p, p ∈ f :: fs ↔ p ∈ g :: gs) (target : Formula) :
    Entails (.variadic .and f fs) target ↔ Entails (.variadic .and g gs) target := by
  constructor
  · intro h
    exact entails_of_subset h fun p hp => (hsame p).mp hp
  · intro h
    exact entails_of_subset h fun p hp => (hsame p).mpr hp

/-- **Only the set of conjuncts counts, and answers grow with it.** Whatever the
settings of the two checks, answers for some conjuncts carry over to any others that
include them, and the same conjuncts in another list give the same verdict. More
generally a conjunction may be replaced by what entails all of its members, and it
entails each of them. -/
theorem make_of_subset (f g statement : Formula) (fs gs : List Formula) (c d : Settings) :
    ∃ r r', Report.make (.variadic .and f fs) statement c = .ok r ∧
      Report.make (.variadic .and g gs) statement d = .ok r' ∧
      (f :: fs ⊆ g :: gs →
        (r.statementEntailed = true → r'.statementEntailed = true) ∧
        (r.negationEntailed = true → r'.negationEntailed = true)) ∧
      ((∀ p, p ∈ f :: fs ↔ p ∈ g :: gs) → r.verdict = r'.verdict) ∧
      ((∀ p ∈ f :: fs, (Formula.variadic .and g gs).entails p = .ok true) →
        (Formula.variadic .and f fs).entails statement = .ok true →
        (Formula.variadic .and g gs).entails statement = .ok true) ∧
      ∀ p ∈ f :: fs, (Formula.variadic .and f fs).entails p = .ok true := by
  obtain ⟨r, hr, hverdict, hs, hn⟩ := exists_report (.variadic .and f fs) statement c
  obtain ⟨r', hr', hverdict', hs', hn'⟩ := exists_report (.variadic .and g gs) statement d
  refine ⟨r, r', hr, hr', ?_, ?_, ?_, ?_⟩
  · intro hsub
    rw [hs, hs', hn, hn']
    exact ⟨fun h => entails_of_subset h hsub, fun h => entails_of_subset h hsub⟩
  · intro hsame
    have hstatement : r.statementEntailed = r'.statementEntailed := by
      rw [Bool.eq_iff_iff, hs, hs']
      exact entails_iff_of_mem_iff hsame statement
    have hnegation : r.negationEntailed = r'.negationEntailed := by
      rw [Bool.eq_iff_iff, hn, hn']
      exact entails_iff_of_mem_iff hsame (.not statement)
    rw [hverdict, hverdict', hstatement, hnegation]
  · intro hall h
    rw [entails_eq_true_iff] at h ⊢
    exact entails_cut h fun p hp => (entails_eq_true_iff _ p).mp (hall p hp)
  · intro p hp
    rw [entails_eq_true_iff]
    exact entails_conjunct hp

end TruthTable.Proofs.Conjuncts
