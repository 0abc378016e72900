import Mathlib.Data.Set.Card
import TruthTable.Proofs.Search

/-!
# Leaves of a search as sequences of choices

A leaf is reached by choosing a value for each remaining symbol in turn. Leaves come in
the lexicographic order of these choices, true before false, so the leaves before a given
one are as many as the sequences of the same length before its own. It is sequences that
are counted and not models: where a symbol remains twice, two of them end in one model.
-/

namespace TruthTable.Proofs.Choices

open Evaluation Completion Search

/-- The model in which the listed symbols are bound in turn, each as chosen. -/
def chosen (symbols : List Symbol) (m : Model) (choices : List Bool) : Model :=
  (symbols.zip choices).foldl (fun m p => m.insert p.1 p.2) m

/-- All choices for a number of symbols. -/
def sequences : Nat → List (List Bool)
  | 0 => [[]]
  | n + 1 => (sequences n).map (true :: ·) ++ (sequences n).map (false :: ·)

theorem mem_sequences {n : Nat} {choices : List Bool} :
    choices ∈ sequences n ↔ choices.length = n := by
  induction n generalizing choices with
  | zero => simp [sequences]
  | succ n ih =>
    cases choices with
    | nil => simp [sequences]
    | cons b choices => cases b <;> simp [sequences, ih]

theorem completions_eq_map (l : List Symbol) (m : Model) :
    Model.completions l m = (sequences l.length).map (chosen l m) := by
  induction l generalizing m with
  | nil => rfl
  | cons s l ih =>
    rw [Model.completions, ih, ih, List.length_cons, sequences, List.map_append, List.map_map,
      List.map_map]
    rfl

theorem mem_completions {l : List Symbol} {m n : Model} :
    n ∈ Model.completions l m ↔ ∃ choices, choices.length = l.length ∧ chosen l m choices = n := by
  rw [completions_eq_map, List.mem_map]
  simp only [mem_sequences]

theorem chosen_mem_completions {l : List Symbol} {choices : List Bool}
    (h : choices.length = l.length) (m : Model) : chosen l m choices ∈ Model.completions l m :=
  mem_completions.mpr ⟨choices, h, rfl⟩

/-- The chosen model satisfies a formula. -/
def Satisfies (symbols : List Symbol) (m : Model) (f : Formula) (choices : List Bool) : Prop :=
  f.evaluate (chosen symbols m choices) = .ok true

theorem satisfies_iff {f : Formula} {remaining : List Symbol} {m : Model}
    (hf : Covers f remaining m) {choices : List Bool} (h : choices.length = remaining.length) :
    Satisfies remaining m f choices ↔ f.holds (chosen remaining m choices).assignment = true := by
  rw [Satisfies, evaluate_of_bound (hf.bound (chosen_mem_completions h m)), Except.ok.injEq]

/-- True is chosen before false. -/
def TrueFirst (a b : Bool) : Prop :=
  a = true ∧ b = false

/-- The lexicographic order of choices. -/
def Earlier : List Bool → List Bool → Prop :=
  List.Lex TrueFirst

theorem not_earlier_self (choices : List Bool) : ¬ Earlier choices choices := by
  apply List.lex_irrefl
  rintro b ⟨ht, hf⟩
  rw [ht] at hf
  cases hf

theorem Earlier.asymm {a b : List Bool} (h : Earlier a b) : ¬ Earlier b a := by
  refine List.lex_asymm ?_ h
  rintro x y ⟨hx, _⟩ ⟨_, hx'⟩
  rw [hx] at hx'
  cases hx'

/-- Nothing is earlier than to choose true throughout. -/
theorem not_earlier_trues {n : Nat} {other : List Bool} (h : other.length = n) :
    ¬ Earlier other (List.replicate n true) := by
  induction n generalizing other with
  | zero => exact fun he => nomatch he
  | succ n ih =>
    cases other with
    | nil => cases h
    | cons b other =>
      intro he
      cases he with
      | rel hb => cases hb.2
      | cons he => exact ih (Nat.succ.inj h) he

theorem pairwise_sequences (n : Nat) : (sequences n).Pairwise Earlier := by
  induction n with
  | zero => exact List.pairwise_singleton _ _
  | succ n ih =>
    have hcons : ∀ b, ((sequences n).map (b :: ·)).Pairwise Earlier := by
      intro b
      rw [List.pairwise_map]
      exact ih.imp fun h => List.Lex.cons h
    rw [sequences, List.pairwise_append]
    refine ⟨hcons true, hcons false, ?_⟩
    intro a ha b hb
    obtain ⟨a, _, rfl⟩ := List.mem_map.mp ha
    obtain ⟨b, _, rfl⟩ := List.mem_map.mp hb
    exact List.Lex.rel ⟨rfl, rfl⟩

theorem pairwise_before {n : Nat} {before rest : List (List Bool)} {choices : List Bool}
    (h : sequences n = before ++ choices :: rest) : before.Pairwise Earlier := by
  have hsorted := pairwise_sequences n
  rw [h, List.pairwise_append] at hsorted
  exact hsorted.1

theorem mem_before_iff {n : Nat} {before rest : List (List Bool)} {choices : List Bool}
    (h : sequences n = before ++ choices :: rest) (other : List Bool) :
    other ∈ before ↔ other.length = n ∧ Earlier other choices := by
  have hsorted := pairwise_sequences n
  rw [h, List.pairwise_append, List.pairwise_cons] at hsorted
  obtain ⟨_, ⟨hrest, _⟩, hbefore⟩ := hsorted
  constructor
  · intro ho
    exact ⟨mem_sequences.mp (by simp [h, ho]), hbefore other ho choices (by simp)⟩
  · rintro ⟨hlen, hearlier⟩
    have hmem := mem_sequences.mpr hlen
    rw [h, List.mem_append, List.mem_cons] at hmem
    rcases hmem with hb | rfl | hr
    · exact hb
    · exact absurd hearlier (not_earlier_self other)
    · exact absurd hearlier (hrest other hr).asymm

/-- How many sequences of the same length are earlier. -/
noncomputable def rank (choices : List Bool) : Nat :=
  {other : List Bool | other.length = choices.length ∧ Earlier other choices}.ncard

theorem length_before {n : Nat} {before rest : List (List Bool)} {choices : List Bool}
    (h : sequences n = before ++ choices :: rest) : before.length = rank choices := by
  have hlen : choices.length = n := mem_sequences.mp (by simp [h])
  have hset : {other : List Bool | other.length = choices.length ∧ Earlier other choices} =
      before.toFinset := by
    ext other
    simp [mem_before_iff h, hlen]
  have hnodup : before.Nodup := by
    apply (pairwise_before h).imp
    rintro a b hab rfl
    exact not_earlier_self a hab
  rw [rank, hset, Set.ncard_coe_finset, List.toFinset_card_of_nodup hnodup]

theorem rank_trues (n : Nat) : rank (List.replicate n true) = 0 := by
  have hset : {other : List Bool | other.length = (List.replicate n true).length ∧
      Earlier other (List.replicate n true)} = ∅ := by
    rw [Set.eq_empty_iff_forall_notMem]
    rintro other ⟨hlen, hearlier⟩
    exact not_earlier_trues (hlen.trans List.length_replicate) hearlier
  rw [rank, hset, Set.ncard_empty]

/-- The earliest choices for a number of symbols that have a property. -/
structure IsFirst (n : Nat) (P : List Bool → Prop) (choices : List Bool) : Prop where
  length_eq : choices.length = n
  holds : P choices
  earliest : ∀ other, other.length = n → Earlier other choices → ¬ P other

theorem isFirst_trues (n : Nat) : IsFirst n (fun _ => True) (List.replicate n true) where
  length_eq := List.length_replicate
  holds := trivial
  earliest _ hlen hearlier := absurd hearlier (not_earlier_trues hlen)

theorem exists_isFirst {n : Nat} {P : List Bool → Prop} {found : List Bool}
    (hlen : found.length = n) (h : P found) : ∃ choices, IsFirst n P choices := by
  classical
  have hsome : ((sequences n).find? fun choices => decide (P choices)).isSome = true := by
    rw [List.find?_isSome]
    exact ⟨found, mem_sequences.mpr hlen, decide_eq_true h⟩
  obtain ⟨choices, hfind⟩ := Option.isSome_iff_exists.mp hsome
  obtain ⟨hp, before, rest, hsplit, hnone⟩ := List.find?_eq_some_iff_append.mp hfind
  refine ⟨choices, mem_sequences.mp (by simp [hsplit]), of_decide_eq_true hp, ?_⟩
  intro other hother hearlier
  have hbefore := hnone other ((mem_before_iff hsplit other).mpr ⟨hother, hearlier⟩)
  simpa using hbefore

/-- An answer that ends a pass: an error, or a failure where the search may stop. -/
def Final (stop : Bool) (answer : Except Incomplete Bool) : Prop :=
  (∃ e, answer = .error e) ∨ stop = true ∧ answer = .ok false

theorem scan_of_final {stop : Bool} {answer : Except Incomplete Bool} (h : Final stop answer)
    (rest : List (Except Incomplete Bool)) (visited : Nat) :
    scan stop (answer :: rest) visited = ⟨answer, visited + 1⟩ := by
  rcases h with ⟨e, rfl⟩ | ⟨rfl, rfl⟩ <;> rfl

theorem check_eq_scan_sequences (c : Checker) (remaining : List Symbol) (m : Model)
    (visited : Nat) :
    c.check remaining m visited =
      scan c.shortCircuit
        ((sequences remaining.length).map fun choices => c.leaf (chosen remaining m choices))
        visited := by
  rw [check_eq_scan, completions_eq_map, List.map_map]
  rfl

/-- **A search ends at its first final leaf.** If leaves without a property pass, and the
first leaf with the property is final, then its answer is the answer, and it is counted
after the leaves before it. -/
theorem check_of_first {c : Checker} {remaining : List Symbol} {m : Model}
    {P : List Bool → Prop} {choices : List Bool} (hfirst : IsFirst remaining.length P choices)
    (hpass : ∀ other, other.length = remaining.length → ¬ P other →
      c.leaf (chosen remaining m other) = .ok true)
    (hfinal : Final c.shortCircuit (c.leaf (chosen remaining m choices))) (visited : Nat) :
    c.check remaining m visited =
      ⟨c.leaf (chosen remaining m choices), visited + (rank choices + 1)⟩ := by
  obtain ⟨before, rest, hsplit⟩ := List.append_of_mem (mem_sequences.mpr hfirst.length_eq)
  have hbefore : ∀ answer ∈ before.map (fun choices => c.leaf (chosen remaining m choices)),
      answer = .ok true := by
    intro answer hanswer
    obtain ⟨other, hother, rfl⟩ := List.mem_map.mp hanswer
    obtain ⟨hlen, hearlier⟩ := (mem_before_iff hsplit other).mp hother
    exact hpass other hlen (hfirst.earliest other hlen hearlier)
  rw [check_eq_scan_sequences, hsplit, List.map_append, List.map_cons, scan_of_pass hbefore,
    scan_of_final hfinal, List.length_map, length_before hsplit, Nat.add_assoc]

/-- A search whose leaves all pass visits all of them. -/
theorem check_of_pass {c : Checker} {remaining : List Symbol} {m : Model}
    (hpass : ∀ n ∈ Model.completions remaining m, c.leaf n = .ok true) (visited : Nat) :
    c.check remaining m visited = ⟨.ok true, visited + 2 ^ remaining.length⟩ := by
  have hall : ∀ answer ∈ (Model.completions remaining m).map c.leaf, answer = .ok true := by
    intro answer hanswer
    obtain ⟨n, hn, rfl⟩ := List.mem_map.mp hanswer
    exact hpass n hn
  rw [check_eq_scan, ← List.append_nil (List.map c.leaf _), scan_of_pass hall, List.length_map,
    length_completions]
  rfl

end TruthTable.Proofs.Choices
