/-!
# Association lists in order of first entry

To put a value under a key replaces the value that stands there and keeps its
place; a new key comes last. Keys that were distinct stay distinct.
-/

namespace TruthTable.Association

variable {α β : Type} [DecidableEq α]

def put (a : α) (b : β) : List (α × β) → List (α × β)
  | [] => [(a, b)]
  | (k, c) :: rest => if k = a then (a, b) :: rest else (k, c) :: put a b rest

theorem keys_put (a : α) (b : β) (l : List (α × β)) :
    (put a b l).map Prod.fst =
      if a ∈ l.map Prod.fst then l.map Prod.fst else l.map Prod.fst ++ [a] := by
  induction l with
  | nil => simp [put]
  | cons p rest ih =>
    obtain ⟨k, c⟩ := p
    by_cases hk : k = a
    · subst hk; simp [put]
    · have ha : ¬ a = k := fun e => hk e.symm
      simp only [put, hk, if_false, List.map_cons, ih, List.mem_cons, ha, false_or]
      split <;> rfl

theorem nodup_keys_put (a : α) (b : β) {l : List (α × β)} (h : (l.map Prod.fst).Nodup) :
    ((put a b l).map Prod.fst).Nodup := by
  rw [keys_put]
  split
  · exact h
  · rename_i ha
    rw [List.nodup_append]
    refine ⟨h, by simp, fun x hx y hy e => ha ?_⟩
    rw [List.mem_singleton] at hy
    exact hy ▸ e ▸ hx

theorem lookup_cons_eq (a k : α) (b : β) (l : List (α × β)) :
    ((k, b) :: l).lookup a = if a = k then some b else l.lookup a := by
  by_cases h : a = k
  · simp [h]
  · simp [List.lookup_cons, beq_false_of_ne h, h]

/-- What is put under a key is found there, and nothing else changes. -/
theorem lookup_put (a k : α) (b : β) (l : List (α × β)) :
    (put a b l).lookup k = if k = a then some b else l.lookup k := by
  induction l with
  | nil => simp [put, lookup_cons_eq]
  | cons p rest ih =>
    obtain ⟨u, c⟩ := p
    by_cases hu : u = a
    · subst hu
      by_cases h : k = u <;> simp [put, lookup_cons_eq, h]
    · by_cases h : k = u
      · subst h
        simp [put, hu]
      · simp [put, lookup_cons_eq, hu, ih, h]

end TruthTable.Association
