import Mathlib.Data.List.Induction
import TruthTable.Proofs.Forcing

/-!
# What a conjunction forces

Literals are stated here by the formulas they are, a symbol or its negation, and not by
what the collection makes of them. Operands are taken in turn: one that is a literal
binds its symbol, and keeps the place of the first literal of that symbol but not its
value. So each forced symbol stands where it is first stated and has the value stated
last. The value holds in every assignment that satisfies the conjunction, although it
need not be the only one stated: where there are two, there is no such assignment.
-/

namespace TruthTable.Proofs.Literals

open Completion Forcing

/-- The literal that asserts a value of a symbol. -/
def literal (s : Symbol) : Bool → Formula
  | true => .atom s
  | false => .not (.atom s)

/-- The formula is the symbol or its negation. -/
def States (g : Formula) (s : Symbol) : Prop :=
  g = .atom s ∨ g = .not (.atom s)

instance (g : Formula) (s : Symbol) : Decidable (States g s) :=
  inferInstanceAs (Decidable (_ ∨ _))

theorem literal?_eq_some_iff {g : Formula} {s : Symbol} {b : Bool} :
    g.literal? = some (s, b) ↔ g = literal s b := by
  constructor
  · intro h
    unfold Formula.literal? at h
    split at h
    · cases h
      rfl
    · cases h
      rfl
    · cases h
  · rintro rfl
    cases b <;> rfl

theorem states_iff {g : Formula} {s : Symbol} : States g s ↔ ∃ b, g = literal s b := by
  constructor
  · rintro (h | h)
    · exact ⟨true, h⟩
    · exact ⟨false, h⟩
  · rintro ⟨b, rfl⟩
    cases b
    · exact Or.inr rfl
    · exact Or.inl rfl

theorem literal_inj_iff {s t : Symbol} {b c : Bool} :
    literal s b = literal t c ↔ s = t ∧ b = c := by
  rw [← literal?_eq_some_iff, literal?_eq_some_iff.mpr rfl]
  simp

theorem states_literal_iff {s t : Symbol} {b : Bool} : States (literal t b) s ↔ s = t := by
  rw [states_iff]
  constructor
  · rintro ⟨c, hc⟩
    exact (literal_inj_iff.mp hc).1.symm
  · rintro rfl
    exact ⟨b, rfl⟩

theorem not_states_of_literal? {g : Formula} (h : g.literal? = none) (s : Symbol) :
    ¬ States g s := by
  rw [states_iff]
  rintro ⟨b, hb⟩
  rw [literal?_eq_some_iff.mpr hb] at h
  cases h

/-- The place of the first operand that states the symbol. -/
def place (operands : List Formula) (s : Symbol) : Nat :=
  operands.findIdx fun g => decide (States g s)

/-- The last operand that states the symbol asserts this value. -/
def LastStated (operands : List Formula) (s : Symbol) (b : Bool) : Prop :=
  ∃ before after, operands = before ++ literal s b :: after ∧ ∀ g ∈ after, ¬ States g s

theorem place_lt_iff {operands : List Formula} {s : Symbol} :
    place operands s < operands.length ↔ ∃ g ∈ operands, States g s := by
  simp [place, List.findIdx_lt_length]

theorem place_append (operands more : List Formula) (s : Symbol) :
    place (operands ++ more) s =
      if place operands s < operands.length then place operands s
      else place more s + operands.length :=
  List.findIdx_append

theorem place_append_left {operands : List Formula} {s : Symbol}
    (h : ∃ g ∈ operands, States g s) (more : List Formula) :
    place (operands ++ more) s = place operands s := by
  rw [place_append, if_pos (place_lt_iff.mpr h)]

/-- The last operand decides what is stated last, if it states the symbol at all. -/
theorem lastStated_append {operands : List Formula} {g : Formula} {s : Symbol} {b : Bool} :
    LastStated (operands ++ [g]) s b ↔
      g = literal s b ∨ ¬ States g s ∧ LastStated operands s b := by
  constructor
  · rintro ⟨before, after, heq, hafter⟩
    rcases List.eq_nil_or_concat after with rfl | ⟨front, last, rfl⟩
    · obtain ⟨-, hg⟩ := List.append_inj' heq rfl
      exact Or.inl (List.cons.inj hg).1
    · rw [List.concat_eq_append, ← List.cons_append, ← List.append_assoc] at heq
      obtain ⟨hfront, hg⟩ := List.append_inj' heq rfl
      cases hg
      refine Or.inr ⟨hafter g (by simp), before, front, hfront, fun k hk => ?_⟩
      exact hafter k (by simp [hk])
  · rintro (rfl | ⟨hg, before, after, rfl, hafter⟩)
    · exact ⟨operands, [], rfl, List.forall_mem_nil _⟩
    · refine ⟨before, after ++ [g], by simp, fun k hk => ?_⟩
      rcases List.mem_append.mp hk with hk | hk
      · exact hafter k hk
      · rw [List.mem_singleton.mp hk]
        exact hg

theorem mem_symbols_insert {m : Model} {s t : Symbol} {b : Bool} :
    t ∈ (m.insert s b).symbols ↔ t ∈ m.symbols ∨ t = s := by
  rw [Model.symbols_insert]
  split
  · rename_i hs
    exact ⟨Or.inl, fun ht => ht.elim id fun he => he ▸ hs⟩
  · simp

/-- What one operand adds to the forced values. -/
def force (m : Model) (g : Formula) : Model :=
  match g.literal? with
  | some (s, b) => m.insert s b
  | none => m

/-- The model binds what the operands state: exactly their symbols, in the order of first
statement, each to the value stated last. -/
structure Collected (operands : List Formula) (m : Model) : Prop where
  mem_iff : ∀ s, s ∈ m.symbols ↔ ∃ g ∈ operands, States g s
  ordered : m.symbols.Pairwise fun s t => place operands s < place operands t
  value_iff : ∀ s b, m.value? s = some b ↔ LastStated operands s b

theorem collected_nil : Collected [] Model.empty where
  mem_iff s := by simp [Model.symbols, Model.empty]
  ordered := List.Pairwise.nil
  value_iff s b := by simp [LastStated]

/-- Symbols collected so far keep their places when operands follow. -/
theorem Collected.ordered_append {operands : List Formula} {m : Model}
    (h : Collected operands m) (more : List Formula) :
    m.symbols.Pairwise fun s t => place (operands ++ more) s < place (operands ++ more) t := by
  refine h.ordered.imp_of_mem fun {s t} hs ht hlt => ?_
  rw [place_append_left ((h.mem_iff s).mp hs), place_append_left ((h.mem_iff t).mp ht)]
  exact hlt

theorem Collected.skip {operands : List Formula} {m : Model} (h : Collected operands m)
    {g : Formula} (hg : ∀ s, ¬ States g s) : Collected (operands ++ [g]) m where
  mem_iff s := by simp [h.mem_iff, hg]
  ordered := h.ordered_append [g]
  value_iff s b := by
    have hne : g ≠ literal s b := fun he => hg s (states_iff.mpr ⟨b, he⟩)
    simp [h.value_iff, lastStated_append, hg s, hne]

theorem Collected.insert {operands : List Formula} {m : Model} (h : Collected operands m)
    (s : Symbol) (b : Bool) : Collected (operands ++ [literal s b]) (m.insert s b) where
  mem_iff t := by
    rw [mem_symbols_insert, h.mem_iff]
    simp [or_and_right, exists_or, states_literal_iff]
  ordered := by
    have hold := h.ordered_append [literal s b]
    rw [Model.symbols_insert]
    split
    · exact hold
    · rename_i hs
      rw [List.pairwise_append]
      refine ⟨hold, List.pairwise_singleton _ _, fun t ht u hu => ?_⟩
      rw [List.mem_singleton.mp hu, place_append_left ((h.mem_iff t).mp ht)]
      have hnew : ¬ place operands s < operands.length :=
        fun hlt => hs ((h.mem_iff s).mpr (place_lt_iff.mp hlt))
      calc place operands t
        _ < operands.length := place_lt_iff.mpr ((h.mem_iff t).mp ht)
        _ ≤ place (operands ++ [literal s b]) s := by
            rw [place_append, if_neg hnew]
            exact Nat.le_add_left _ _
  value_iff t c := by
    rw [Model.value?_insert, lastStated_append, states_literal_iff]
    by_cases ht : t = s
    · subst ht
      simp [literal_inj_iff]
    · have hne : ¬ s = t := fun he => ht he.symm
      simp [ht, hne, h.value_iff, literal_inj_iff]

/-- One operand more is collected as it should be, a literal or not. -/
theorem Collected.force {operands : List Formula} {m : Model} (h : Collected operands m)
    (g : Formula) : Collected (operands ++ [g]) (force m g) := by
  unfold Literals.force
  cases hg : g.literal? with
  | none => exact h.skip (not_states_of_literal? hg)
  | some p =>
    rw [literal?_eq_some_iff.mp hg]
    exact h.insert p.1 p.2

theorem ofList_filterMap (operands : List Formula) :
    Model.ofList (operands.filterMap Formula.literal?) = operands.foldl force Model.empty := by
  rw [Model.ofList, List.foldl_filterMap]
  congr 1
  funext m g
  unfold force
  cases g.literal? <;> rfl

/-- **What the operands of a conjunction state is collected.** -/
theorem collected (operands : List Formula) :
    Collected operands (Model.ofList (operands.filterMap Formula.literal?)) := by
  rw [ofList_filterMap]
  induction operands using List.reverseRecOn with
  | nil => exact collected_nil
  | append_singleton operands g ih =>
    rw [List.foldl_append]
    exact ih.force g

theorem forced_of_not_and {kb : Formula} (h : ∀ f fs, kb ≠ .variadic .and f fs) :
    kb.forced = Model.empty := by
  unfold Formula.forced
  split
  · exact absurd rfl (h _ _)
  · rfl

theorem unsatisfiable_of_both {f : Formula} {fs : List Formula} {s : Symbol}
    (ht : literal s true ∈ f :: fs) (hf : literal s false ∈ f :: fs) (v : Symbol → Bool) :
    ¬ (Formula.variadic .and f fs).holds v = true := by
  intro hv
  rw [holds_and] at hv
  have htrue := (holds_literal (literal?_eq_some_iff.mpr rfl) v).mp (hv _ ht)
  have hfalse := (holds_literal (literal?_eq_some_iff.mpr rfl) v).mp (hv _ hf)
  exact absurd (htrue.symm.trans hfalse) (by decide)

/-- An assignment with the bindings of a model put in place of its own values. -/
def override (v : Symbol → Bool) (m : Model) (s : Symbol) : Bool :=
  (m.value? s).getD (v s)

theorem override_of_agrees {v : Symbol → Bool} {m : Model} (h : Agrees v m) :
    override v m = v := by
  funext s
  unfold override
  cases hs : m.value? s with
  | none => rfl
  | some b => exact (h s b hs).symm

/-- **Forcing is exact and sound.** Only a conjunction forces anything. It binds exactly the
symbols that stand among its operands as they are or negated, in the order of the first such
operand, each to the value of the last. Every assignment that satisfies a formula has the
values that it forces, and a symbol that is stated both ways leaves none. So a formula is
satisfied exactly by the assignments that have the forced values and, with these put in
place, satisfy it. -/
theorem forced_exact (kb : Formula) :
    ((∀ f fs, kb ≠ .variadic .and f fs) → kb.forced = Model.empty) ∧
    (∀ f fs, kb = .variadic .and f fs →
      (∀ s, s ∈ kb.forced.symbols ↔ ∃ g ∈ f :: fs, g = .atom s ∨ g = .not (.atom s)) ∧
      kb.forced.symbols.Pairwise (fun s t => place (f :: fs) s < place (f :: fs) t) ∧
      (∀ s b, kb.forced.value? s = some b ↔ LastStated (f :: fs) s b) ∧
      ∀ s, .atom s ∈ f :: fs → .not (.atom s) ∈ f :: fs → ¬ ∃ v, kb.holds v = true) ∧
    (∀ v, kb.holds v = true → ∀ s b, kb.forced.value? s = some b → v s = b) ∧
    ∀ v, kb.holds v = true ↔
      kb.holds (override v kb.forced) = true ∧
        ∀ s b, kb.forced.value? s = some b → v s = b := by
  refine ⟨forced_of_not_and, ?_, fun v hv => agrees_forced hv, fun v => ⟨?_, ?_⟩⟩
  · rintro f fs rfl
    have hcollected := collected (f :: fs)
    refine ⟨hcollected.mem_iff, hcollected.ordered, hcollected.value_iff, ?_⟩
    rintro s ht hf ⟨v, hv⟩
    exact unsatisfiable_of_both ht hf v hv
  · intro hv
    have hagrees : Agrees v kb.forced := agrees_forced hv
    rw [override_of_agrees hagrees]
    exact ⟨hv, hagrees⟩
  · rintro ⟨hv, hagrees⟩
    rw [override_of_agrees hagrees] at hv
    exact hv

example :
    (Formula.variadic .and (.atom ⟨"Open", rfl⟩) [.atom ⟨"Lit", rfl⟩,
      .not (.atom ⟨"Open", rfl⟩)]).forced.bindings =
        [(⟨"Open", rfl⟩, false), (⟨"Lit", rfl⟩, true)] := rfl

end TruthTable.Proofs.Literals
