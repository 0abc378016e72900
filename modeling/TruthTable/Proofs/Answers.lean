import TruthTable.Proofs.Search

/-!
# What a checker answers from any start

A checker may start from any model and any list of symbols to bind, repetitions and
symbols that the model binds already among them. A symbol of the list is bound anew,
so the model counts only away from the list, and of the list only its members count.
Provided that list and model cover both formulas, the answer is entailment over the
assignments that have the model's values there. Neither the order of the list nor the
way of searching nor the checks made before have a part in it.
-/

namespace TruthTable.Proofs.Answers

open Evaluation Completion Search

/-- The assignment has the model's values away from the symbols that are bound anew. -/
def Respects (v : Symbol → Bool) (m : Model) (remaining : List Symbol) : Prop :=
  ∀ s b, s ∉ remaining → m.value? s = some b → v s = b

theorem covers_of_symbols {f : Formula} {remaining : List Symbol} {m : Model}
    (h : ∀ s ∈ f.symbols, s ∈ remaining ∨ m.contains s = true) : Covers f remaining m := by
  intro s hs
  exact h s ((mem_symbols f s).mpr hs)

theorem covers_of_mem_iff {f : Formula} {remaining order : List Symbol} {m : Model}
    (h : Covers f remaining m) (hmem : ∀ s, s ∈ order ↔ s ∈ remaining) : Covers f order m := by
  intro s hs
  rcases h s hs with hr | hm
  · exact Or.inl ((hmem s).mpr hr)
  · exact Or.inr hm

theorem respects_of_mem_iff {v : Symbol → Bool} {m : Model} {remaining order : List Symbol}
    (hmem : ∀ s, s ∈ order ↔ s ∈ remaining) : Respects v m order ↔ Respects v m remaining := by
  simp only [Respects, hmem]

/-- Two lists with the same members lead to the same answer, though the leaves may
come in another order and another number. -/
theorem all_answers_of_mem_iff {kb target : Formula} {remaining order : List Symbol} {m : Model}
    (hk : Covers kb remaining m) (ht : Covers target remaining m)
    (hmem : ∀ s, s ∈ order ↔ s ∈ remaining) :
    (answers kb target order m).all id = (answers kb target remaining m).all id := by
  rw [Bool.eq_iff_iff, all_answers_iff (covers_of_mem_iff hk hmem) (covers_of_mem_iff ht hmem),
    all_answers_iff hk ht]
  constructor
  · intro h v hv
    exact h v ((respects_of_mem_iff hmem).mpr hv)
  · intro h v hv
    exact h v ((respects_of_mem_iff hmem).mp hv)

/-- How many models a checker has visited after earlier checks, each with its own
symbols and model. The count is all that a check leaves behind. -/
def visitedAfter (c : Checker) (earlier : List (List Symbol × Model)) : Nat :=
  earlier.foldl (fun visited start => (c.check start.1 start.2 visited).visited) 0

theorem result_check_of_covers {c : Checker} {remaining : List Symbol} {m : Model}
    (hk : Covers c.kb remaining m) (ht : Covers c.target remaining m) (visited : Nat) :
    (c.check remaining m visited).result =
      .ok ((answers c.kb c.target remaining m).all id) := by
  rw [check_of_covers hk ht]

/-- **The answer from any start.** If the remaining symbols and the model cover both
formulas, there is an answer: whether the target holds under every assignment that
satisfies the knowledge base and has the model's values away from the remaining
symbols. It is the same whether or not the search may stop early, for the remaining
symbols in any order, and after any earlier checks. -/
theorem check_decides (kb target : Formula) (remaining : List Symbol) (m : Model)
    (hk : ∀ s ∈ kb.symbols, s ∈ remaining ∨ m.contains s = true)
    (ht : ∀ s ∈ target.symbols, s ∈ remaining ∨ m.contains s = true) :
    ∃ answer : Bool,
      (answer = true ↔ ∀ v, Respects v m remaining → kb.holds v = true → target.holds v = true) ∧
      ∀ (stop : Bool) (order : List Symbol) (earlier : List (List Symbol × Model)),
        order.Perm remaining →
        (Checker.check ⟨kb, target, stop⟩ order m
          (visitedAfter ⟨kb, target, stop⟩ earlier)).result = .ok answer := by
  have hkb := covers_of_symbols hk
  have htarget := covers_of_symbols ht
  refine ⟨(answers kb target remaining m).all id, all_answers_iff hkb htarget, ?_⟩
  intro stop order earlier hperm
  have hmem : ∀ s, s ∈ order ↔ s ∈ remaining := fun s => hperm.mem_iff
  rw [← all_answers_of_mem_iff hkb htarget hmem]
  exact result_check_of_covers (covers_of_mem_iff hkb hmem) (covers_of_mem_iff htarget hmem) _

def symbolA : Symbol :=
  ⟨"A", rfl⟩

def symbolB : Symbol :=
  ⟨"B", rfl⟩

/-- Whether `B` follows from `(or A B)`, with all leaves visited. -/
def oneOfTwo : Checker :=
  ⟨.variadic .or (.atom symbolA) [.atom symbolB], .atom symbolB, false⟩

/-- A model that binds `A` to false and `B` to true. -/
def onlyB : Model :=
  .ofList [(symbolA, false), (symbolB, true)]

/-- `B` is bound anew, and twice, after a check that bound `A` anew. -/
theorem check_decides_onlyB :
    (oneOfTwo.check [symbolB, symbolB] onlyB (visitedAfter oneOfTwo [([symbolA], onlyB)])).result =
      .ok true := by
  obtain ⟨answer, hanswer, hall⟩ := check_decides oneOfTwo.kb oneOfTwo.target [symbolB, symbolB]
    onlyB (by decide) (by decide)
  obtain rfl : answer = true := by
    rw [hanswer]
    intro v hv hkb
    have ha : v symbolA = false := hv symbolA false (by decide) (by decide)
    simpa [oneOfTwo, Formula.holds, Formula.holdsEach, Variadic.apply, ha] using hkb
  exact hall false [symbolB, symbolB] [([symbolA], onlyB)] (List.Perm.refl _)

end TruthTable.Proofs.Answers
