import Mathlib.Data.Finset.Card
import Mathlib.Data.List.Perm.Subperm
import TruthTable.Proofs.Forcing
import TruthTable.Proofs.LeafCount

/-!
# Models as finite maps

A model is bound symbol by symbol. Its symbols stand in the order in which they were first
bound, and each has the value that it was bound to last. Two models agree if they give every
symbol the same value, whatever that order is. The order shows in what is printed and in
the model that a search names when it finds a symbol unbound; it shows neither in the value
of a formula nor in the answer or the count of a search.
-/

namespace TruthTable.Proofs.Bindings

open Evaluation Completion Forcing Search LeafCount

theorem ofList_append (bs : List (Symbol × Bool)) (s : Symbol) (b : Bool) :
    Model.ofList (bs ++ [(s, b)]) = (Model.ofList bs).insert s b := by
  rw [Model.ofList, List.foldl_append]
  rfl

theorem symbols_ofList_eq_foldl (bs : List (Symbol × Bool)) :
    (Model.ofList bs).symbols = (bs.map Prod.fst).foldl note [] := by
  induction bs using List.reverseRecOn with
  | nil => rfl
  | append_singleton bs p ih =>
    rw [ofList_append, Model.symbols_insert, ih, List.map_append, List.foldl_append]
    rfl

/-- The symbols are those bound, without later repetitions. -/
theorem symbols_ofList (bs : List (Symbol × Bool)) :
    (Model.ofList bs).symbols = (bs.map Prod.fst).eraseDups := by
  rw [symbols_ofList_eq_foldl, foldl_note_eq]
  simp

theorem mem_symbols_ofList {bs : List (Symbol × Bool)} {s : Symbol} :
    s ∈ (Model.ofList bs).symbols ↔ s ∈ bs.map Prod.fst := by
  rw [symbols_ofList, List.mem_eraseDups]

theorem length_symbols (m : Model) : m.symbols.length = m.size := by
  rw [Model.symbols, List.length_map, Model.size]

theorem size_ofList (bs : List (Symbol × Bool)) :
    (Model.ofList bs).size = (bs.map Prod.fst).toFinset.card := by
  have hsame : (Model.ofList bs).symbols.toFinset = (bs.map Prod.fst).toFinset := by
    ext s
    rw [List.mem_toFinset, List.mem_toFinset, mem_symbols_ofList]
  rw [← hsame, ← length_symbols]
  exact (List.toFinset_card_of_nodup (Model.ofList bs).nodup).symm

/-- The last of the bindings of a symbol. -/
def LastBound (bs : List (Symbol × Bool)) (s : Symbol) (b : Bool) : Prop :=
  ∃ before after, bs = before ++ (s, b) :: after ∧ ∀ p ∈ after, p.1 ≠ s

theorem value?_ofList_eq_some_iff {bs : List (Symbol × Bool)} {s : Symbol} {b : Bool} :
    (Model.ofList bs).value? s = some b ↔ LastBound bs s b := by
  rw [value?_ofList, List.lookup_eq_some_iff]
  constructor
  · rintro ⟨after, before, heq, hafter⟩
    refine ⟨before.reverse, after.reverse, ?_, fun p hp he => ?_⟩
    · rw [← List.reverse_reverse bs, heq]
      simp
    · simpa [he] using hafter p (List.mem_reverse.mp hp)
  · rintro ⟨before, after, rfl, hafter⟩
    refine ⟨after.reverse, before.reverse, by simp, fun p hp => ?_⟩
    have hne := hafter p (List.mem_reverse.mp hp)
    simpa using hne.symm

theorem value?_eq_some_iff {m : Model} {s : Symbol} {b : Bool} :
    m.value? s = some b ↔ (s, b) ∈ m.bindings := by
  constructor
  · exact mem_of_lookup
  · intro h
    obtain ⟨before, after, heq⟩ := List.append_of_mem h
    have hnodup := m.nodup
    rw [heq, List.map_append, List.nodup_append] at hnodup
    rw [Model.value?, heq, List.lookup_eq_some_iff]
    refine ⟨before, after, rfl, fun p hp => ?_⟩
    have hne := hnodup.2.2 p.1 (List.mem_map_of_mem hp) s (by simp)
    simpa using hne.symm

theorem value?_eq_none_iff {m : Model} {s : Symbol} : m.value? s = none ↔ s ∉ m.symbols := by
  rw [Option.eq_none_iff_forall_ne_some, Model.symbols, List.mem_map]
  constructor
  · rintro h ⟨⟨t, b⟩, hp, rfl⟩
    exact h b (value?_eq_some_iff.mpr hp)
  · intro h b hb
    exact h ⟨(s, b), value?_eq_some_iff.mp hb, rfl⟩

/-- A new key goes to the end. -/
theorem put_of_not_mem {s : Symbol} (b : Bool) {l : List (Symbol × Bool)}
    (h : s ∉ l.map Prod.fst) : Association.put s b l = l ++ [(s, b)] := by
  induction l with
  | nil => rfl
  | cons p l ih =>
    obtain ⟨t, c⟩ := p
    rw [List.map_cons, List.mem_cons, not_or] at h
    have hne : ¬ t = s := fun he => h.1 he.symm
    rw [Association.put, if_neg hne, ih h.2, List.cons_append]

theorem bindings_ofList {bs : List (Symbol × Bool)} (h : (bs.map Prod.fst).Nodup) :
    (Model.ofList bs).bindings = bs := by
  induction bs using List.reverseRecOn with
  | nil => rfl
  | append_singleton bs p ih =>
    rw [List.map_append, List.nodup_append] at h
    have hnew : p.1 ∉ bs.map Prod.fst := fun hp => h.2.2 p.1 hp p.1 (by simp) rfl
    calc (Model.ofList (bs ++ [p])).bindings
      _ = Association.put p.1 p.2 (Model.ofList bs).bindings := by rw [ofList_append]; rfl
      _ = Association.put p.1 p.2 bs := by rw [ih h.1]
      _ = bs ++ [p] := put_of_not_mem p.2 hnew

/-- Every model is reached by its own bindings. -/
theorem ofList_bindings (m : Model) : Model.ofList m.bindings = m := by
  obtain ⟨bs, hbs⟩ := m
  have h := bindings_ofList hbs
  cases hm : Model.ofList bs with
  | mk bs' hbs' =>
    rw [hm] at h
    cases h
    rfl

/-- Two models that give every symbol the same value. -/
def Same (m n : Model) : Prop :=
  ∀ s, m.value? s = n.value? s

theorem Same.mem_symbols_iff {m n : Model} (h : Same m n) (s : Symbol) :
    s ∈ m.symbols ↔ s ∈ n.symbols := by
  rw [← not_iff_not, ← value?_eq_none_iff, ← value?_eq_none_iff, h s]

theorem Same.size_eq {m n : Model} (h : Same m n) : m.size = n.size := by
  have hperm := (List.perm_ext_iff_of_nodup m.nodup n.nodup).mpr h.mem_symbols_iff
  rw [← length_symbols, ← length_symbols]
  exact hperm.length_eq

/-- If the second model has the bindings of the first and no more of them, it has no
others. -/
theorem same_of_bindings {m n : Model} (hsize : m.size = n.size)
    (h : ∀ s b, m.value? s = some b → n.value? s = some b) : Same m n := by
  have hsub : m.symbols ⊆ n.symbols := by
    intro t ht
    by_contra hn
    obtain ⟨b, hb⟩ := Option.ne_none_iff_exists'.mp fun he => value?_eq_none_iff.mp he ht
    rw [← value?_eq_none_iff, h t b hb] at hn
    cases hn
  have hlength : n.symbols.length ≤ m.symbols.length := by
    rw [length_symbols, length_symbols, hsize]
  have hperm := (List.subperm_of_subset m.nodup hsub).perm_of_length_le hlength
  intro s
  cases hs : m.value? s with
  | some b => exact (h s b hs).symm
  | none =>
    rw [value?_eq_none_iff] at hs
    exact (value?_eq_none_iff.mpr fun ht => hs (hperm.mem_iff.mpr ht)).symm

/-- **Agreement is agreement on every symbol.** -/
theorem agrees_iff {m n : Model} : m.agrees n = true ↔ Same m n := by
  rw [Model.agrees, Bool.and_eq_true, beq_iff_eq, List.all_eq_true]
  constructor
  · rintro ⟨hsize, hall⟩
    refine same_of_bindings hsize fun s b hs => ?_
    simpa using hall (s, b) (value?_eq_some_iff.mp hs)
  · intro h
    refine ⟨h.size_eq, fun p hp => ?_⟩
    rw [← h p.1, value?_eq_some_iff.mpr hp]
    exact beq_self_eq_true _

theorem Same.insert {m n : Model} (h : Same m n) (s : Symbol) (b : Bool) :
    Same (m.insert s b) (n.insert s b) := by
  intro t
  rw [Model.value?_insert, Model.value?_insert, h t]

theorem Same.evaluate {m n : Model} (h : Same m n) (f : Formula) :
    f.evaluate m = f.evaluate n := by
  have hcontains : m.contains = n.contains := funext fun s => by
    rw [Model.contains, h s, Model.contains]
  have hassignment : m.assignment = n.assignment := funext fun s => by
    rw [Model.assignment, h s, Model.assignment]
  rw [evaluate_eq, evaluate_eq, firstUnbound, firstUnbound, hcontains, hassignment]

/-- Two outcomes with the same count that give the same answer or found the same symbol
unbound. The models in which it was found may have bound their symbols in different orders. -/
inductive Alike : Outcome → Outcome → Prop where
  | answer (b : Bool) (visited : Nat) : Alike ⟨.ok b, visited⟩ ⟨.ok b, visited⟩
  | unbound (s : Symbol) (m n : Model) (visited : Nat) :
      Alike ⟨.error ⟨s, m⟩, visited⟩ ⟨.error ⟨s, n⟩, visited⟩

theorem Alike.answer_eq {o p : Outcome} (h : Alike o p) :
    o.result.mapError Incomplete.symbol = p.result.mapError Incomplete.symbol := by
  cases h <;> rfl

theorem Alike.visited_eq {o p : Outcome} (h : Alike o p) : o.visited = p.visited := by
  cases h <;> rfl

theorem Same.leaf {m n : Model} (h : Same m n) (c : Checker) (visited : Nat) :
    Alike ⟨c.leaf m, visited⟩ ⟨c.leaf n, visited⟩ := by
  unfold Checker.leaf Formula.evaluateComplete
  rw [h.evaluate c.kb, h.evaluate c.target]
  cases c.kb.evaluate n with
  | error u => exact .unbound u.symbol m n visited
  | ok b =>
    cases b with
    | false => exact .answer true visited
    | true =>
      cases c.target.evaluate n with
      | error u => exact .unbound u.symbol m n visited
      | ok b => exact .answer b visited

/-- What follows alike outcomes in an alike way is alike. -/
theorem Alike.after {o p : Outcome} (h : Alike o p) (stop : Bool) {next next' : Nat → Outcome}
    (hnext : ∀ visited, Alike (next visited) (next' visited)) :
    Alike (after stop o next) (after stop p next') := by
  cases h with
  | unbound s m n visited => exact .unbound s m n visited
  | answer b visited =>
    cases b with
    | true => exact hnext visited
    | false =>
      cases stop with
      | true => exact .answer false visited
      | false =>
        have hrest := hnext visited
        simp only [Search.after, Bool.false_eq_true, ↓reduceIte]
        generalize next visited = o at hrest ⊢
        generalize next' visited = p at hrest ⊢
        cases hrest with
        | answer b visited => exact .answer false visited
        | unbound s m n visited => exact .unbound s m n visited

/-- **A search takes the same course from models that agree.** -/
theorem Same.check {m n : Model} (h : Same m n) (c : Checker) (remaining : List Symbol)
    (visited : Nat) : Alike (c.check remaining m visited) (c.check remaining n visited) := by
  induction remaining generalizing m n visited with
  | nil => exact h.leaf c (visited + 1)
  | cons s rest ih =>
    rw [check_cons, check_cons]
    exact (ih (h.insert s true) visited).after c.shortCircuit (ih (h.insert s false))

theorem answer_eq_of_start (c : Checker) (remaining : List Symbol) (m : Model) (j k : Nat) :
    (c.check remaining m j).result = (c.check remaining m k).result := by
  rw [check_eq_trace, check_eq_trace]

/-- **A model is a finite map that remembers the order of first binding.** Bindings from a
list are made one after the other, so that one more binding is one more item of the list.
The symbols are distinct and in the order of their first binding; the value of a symbol is
the last that it was bound to, and a symbol without a binding has none; the size is the
number of different symbols. Every model comes about in this way.

Two models agree exactly if they give every symbol the same value. Then every formula has
the same value under both, or the same first symbol unbound; and from both a search gives
the same answer or finds the same symbol unbound, and adds the same number to its count,
whatever that was before. -/
theorem model_finite_map :
    (∀ bs : List (Symbol × Bool),
      Model.ofList bs = bs.foldl (fun m p => m.insert p.1 p.2) Model.empty ∧
      (∀ s b, (Model.ofList bs).insert s b = Model.ofList (bs ++ [(s, b)])) ∧
      (Model.ofList bs).symbols.Nodup ∧
      (Model.ofList bs).symbols = (bs.map Prod.fst).eraseDups ∧
      (∀ s b, (Model.ofList bs).value? s = some b ↔ LastBound bs s b) ∧
      (∀ s, (Model.ofList bs).value? s = none ↔ s ∉ bs.map Prod.fst) ∧
      (Model.ofList bs).size = (bs.map Prod.fst).toFinset.card) ∧
    (∀ m : Model, Model.ofList m.bindings = m) ∧
    ∀ m n : Model,
      (m.agrees n = true ↔ ∀ s, m.value? s = n.value? s) ∧
      (m.agrees n = true →
        (∀ f : Formula, f.evaluate m = f.evaluate n) ∧
        ∀ (c : Checker) (remaining : List Symbol) (j k : Nat),
          (c.check remaining m j).result.mapError Incomplete.symbol =
              (c.check remaining n k).result.mapError Incomplete.symbol ∧
            ∃ increase, (c.check remaining m j).visited = j + increase ∧
              (c.check remaining n k).visited = k + increase) := by
  refine ⟨fun bs => ?_, ofList_bindings, fun m n => ⟨agrees_iff, fun h => ?_⟩⟩
  · refine ⟨rfl, fun s b => (ofList_append bs s b).symm, (Model.ofList bs).nodup,
      symbols_ofList bs, fun s b => value?_ofList_eq_some_iff, fun s => ?_, size_ofList bs⟩
    rw [value?_eq_none_iff, mem_symbols_ofList]
  · have hsame : Same m n := agrees_iff.mp h
    refine ⟨hsame.evaluate, fun c remaining j k => ⟨?_, (trace c remaining m).leaves.length, ?_, ?_⟩⟩
    · rw [answer_eq_of_start c remaining n k j]
      exact (hsame.check c remaining j).answer_eq
    · rw [check_eq_trace]
    · rw [← (hsame.check c remaining k).visited_eq, check_eq_trace]

def hot : Symbol :=
  ⟨"Hot", rfl⟩

def cold : Symbol :=
  ⟨"Cold", rfl⟩

/-- `Hot` is bound first and bound again last. -/
def hotFirst : Model :=
  .ofList [(hot, true), (cold, true), (hot, false)]

def coldFirst : Model :=
  (Model.ofList [(cold, true)]).insert hot false

/-- The order of binding tells these models apart, and nothing else does. -/
theorem model_finite_map_hotCold :
    hotFirst.symbols = [hot, cold] ∧ coldFirst.symbols = [cold, hot] ∧
      hotFirst.agrees coldFirst = true ∧
      ∀ f : Formula, f.evaluate hotFirst = f.evaluate coldFirst :=
  ⟨by decide, by decide, by decide,
    ((model_finite_map.2.2 hotFirst coldFirst).2 (by decide)).1⟩

end TruthTable.Proofs.Bindings
