import TruthTable.Proofs.ReaderRun

/-!
# How far reading looks

Reading a leading expression uses up some first characters of a text and leaves the rest
as it is. A compound is finished by its closing parenthesis, and what follows cannot
undo that. A bare word has no such end: it is finished by what follows, and one character
of that is looked at. Some text is always used up, and the last of it is no separator.
-/

namespace TruthTable.Proofs.Lookahead

open Reader Tokens ReaderRun

theorem deliver_eq_last {t u : Tree} {outer : List Frame} (h : deliver t outer = .last u) :
    u = t := by
  cases outer with
  | nil => cases h; rfl
  | cons f outer => cases h

theorem deliver_ne_atom (t : Tree) (outer inside : List Frame) (w : List Char) :
    deliver t outer ≠ .next (.atom w inside) := by
  cases outer with
  | nil => exact Step.noConfusion
  | cons f outer =>
    intro h
    cases h

/-- The last character of an expression closes a compound. -/
theorem step_eq_last {st : State} {c : Char} {t : Tree} (h : step st c = .last t) :
    c = ')' ∧ ∃ head args, t = .node head args := by
  cases st with
  | start =>
    rw [step] at h
    split_ifs at h
  | openHead outer =>
    rw [step] at h
    split_ifs at h
  | head w outer =>
    rw [step] at h
    split_ifs at h with _ _ hc
    exact ⟨beq_iff_eq.mp hc, _, _, deliver_eq_last h⟩
  | args f outer =>
    rw [step] at h
    split_ifs at h with _ hc
    exact ⟨beq_iff_eq.mp hc, _, _, deliver_eq_last h⟩
  | atom w outer =>
    cases outer with
    | nil =>
      simp only [step] at h
      split_ifs at h
    | cons f outer =>
      simp only [step] at h
      split_ifs at h with _ _ hc
      exact ⟨beq_iff_eq.mp hc, _, _, deliver_eq_last h⟩

/-- A bare word begins and grows by word characters only. -/
theorem wordChar_of_step {st : State} {c : Char} {w : List Char} {outer : List Frame}
    (h : step st c = .next (.atom w outer)) : isWordChar c = true := by
  by_contra hw
  cases st with
  | start =>
    rw [step] at h
    split_ifs at h <;> cases h
  | openHead inside =>
    rw [step] at h
    split_ifs at h
    cases h
  | head u inside =>
    rw [step] at h
    split_ifs at h
    · cases h
    · exact deliver_ne_atom _ _ _ _ h
  | args f inside =>
    rw [step] at h
    split_ifs at h
    · cases h
    · exact deliver_ne_atom _ _ _ _ h
    · cases h
  | atom u inside =>
    cases inside with
    | nil =>
      simp only [step] at h
      split_ifs at h
    | cons f inside =>
      simp only [step] at h
      split_ifs at h
      · exact deliver_ne_atom _ _ _ _ h
      · cases h

theorem exists_last_step {st st' : State} {xs : List Char} {c : Char}
    (h : advance st (xs ++ [c]) = some st') : ∃ mid, step mid c = .next st' := by
  induction xs generalizing st with
  | nil =>
    obtain ⟨mid, hs, hmid⟩ := advance_cons h
    cases hmid
    exact ⟨st, hs⟩
  | cons d xs ih =>
    obtain ⟨mid, -, hmid⟩ := advance_cons h
    exact ih hmid

theorem suffix_of_run {st : State} {cs rest : List Char} {t : Tree}
    (h : run st cs = .tree t rest) : rest <:+ cs := by
  rcases run_eq_tree h with ⟨xs, c, -, hcs, -, -⟩ | ⟨xs, w, hcs, -, -, -⟩
  · exact ⟨xs ++ [c], by rw [hcs, List.append_assoc, List.singleton_append]⟩
  · exact ⟨xs, hcs.symm⟩

/-- Of what follows a bare word, one character decides whether the word ends there. -/
theorem run_atom_eq_iff (w s : List Char) :
    run (.atom w []) s = .tree (.leaf (wordOf w)) s ↔ endsWord s = true := by
  constructor
  · intro h
    cases s with
    | nil => rfl
    | cons c s =>
      by_cases hw : isWordChar c = true
      · have hs : step (.atom w []) c = .next (.atom (c :: w) []) := by simp [step, hw]
        rw [run_next hs] at h
        have hlength := (suffix_of_run h).length_le
        rw [List.length_cons] at hlength
        omega
      · by_cases he : endsWord (c :: s) = true
        · exact he
        · rw [endsWord_cons, not_or] at he
          have hs : step (.atom w []) c = .reject := by simp [step, hw, he.1, he.2]
          rw [run, hs] at h
          cases h
  · intro he
    exact run_atom_end w [] he

theorem leaf_not_node (name : String) : ¬ ∃ head args, Tree.leaf name = .node head args := by
  rintro ⟨head, args, h⟩
  cases h

/-- **What a leading expression uses up.** Given the same characters again, the same tree is
found and all that follows is left over, after a compound always and after a bare word if
what follows ends a word. -/
theorem exists_used {text rest : List Char} {t : Tree} (h : run .start text = .tree t rest) :
    ∃ front c, text = front ++ [c] ++ rest ∧ isSeparator c = false ∧
      ∀ s, run .start (front ++ [c] ++ s) = .tree t s ↔
        (∃ head args, t = .node head args) ∨ endsWord s = true := by
  rcases run_eq_tree h with ⟨front, c, st, hcs, ha, hs⟩ | ⟨used, w, hcs, ha, ht, -⟩
  · obtain ⟨rfl, hnode⟩ := step_eq_last hs
    refine ⟨front, ')', by rw [hcs, List.append_assoc]; rfl, by decide, fun s => ?_⟩
    have hrun : run .start (front ++ [')'] ++ s) = .tree t s := by
      rw [List.append_assoc, run_append ha, List.singleton_append, run, hs]
    exact iff_of_true hrun (Or.inl hnode)
  · subst ht
    rcases List.eq_nil_or_concat used with rfl | ⟨front, c, rfl⟩
    · cases ha
    · rw [List.concat_eq_append] at hcs ha
      obtain ⟨mid, hmid⟩ := exists_last_step ha
      refine ⟨front, c, hcs, (ne_of_wordChar (wordChar_of_step hmid)).1, fun s => ?_⟩
      rw [run_append ha, run_atom_eq_iff, or_iff_right (leaf_not_node _)]

/-- **One expression and no further.** The text before what is left over is not empty, ends
in no separator, and is read as the same tree on its own. With any other text after it the
tree is found again and just that text is left over: always if the tree is a compound, and
if it is a bare word exactly where the other text is empty or begins with a separator or a
closing parenthesis. -/
theorem readLeading_looks_no_further (text rest : String) (t : Tree)
    (h : Tree.readLeading text.toList = .ok (t, rest.toList)) :
    ∃ used : String, text = used ++ rest ∧
      (∃ c, used.toList.getLast? = some c ∧ isSeparator c = false) ∧
      Tree.read used = .ok t ∧
      ∀ s : String, match t with
        | .node _ _ => Tree.readLeading (used ++ s).toList = .ok (t, s.toList)
        | .leaf _ =>
          Tree.readLeading (used ++ s).toList = .ok (t, s.toList) ↔ endsWord s.toList = true := by
  obtain ⟨front, c, htext, hc, hrun⟩ := exists_used (readLeading_eq_ok_iff.mp h)
  refine ⟨String.ofList (front ++ [c]), ?_, ⟨c, by simp, hc⟩, ?_, fun s => ?_⟩
  · apply String.toList_injective
    rw [String.toList_append, String.toList_ofList]
    exact htext
  · rw [Tree.read, String.toList_ofList, readAll_eq_ok_iff]
    refine ⟨[], ?_, rfl⟩
    have halone := (hrun []).mpr (Or.inr rfl)
    rw [List.append_nil] at halone
    exact halone
  · rw [String.toList_append, String.toList_ofList]
    cases t with
    | node head args => exact readLeading_eq_ok_iff.mpr ((hrun _).mpr (Or.inl ⟨head, args, rfl⟩))
    | leaf name => rw [readLeading_eq_ok_iff, hrun, or_iff_right (leaf_not_node name)]

/-- The word after `(not Wet)` plays no part, however close it stands; what stands after
the bare word `Wet` does. -/
theorem readLeading_looks_no_further_wet :
    (∃ used : String, " (not Wet)Dry" = used ++ "Dry" ∧
      ∀ s : String, Tree.readLeading (used ++ s).toList =
        .ok (.node "not" [.leaf "Wet"], s.toList)) ∧
    ∃ used : String, "\tWet )" = used ++ " )" ∧
      ∀ s : String, Tree.readLeading (used ++ s).toList = .ok (.leaf "Wet", s.toList) ↔
        endsWord s.toList = true := by
  obtain ⟨used, hused, -, -, hs⟩ := readLeading_looks_no_further " (not Wet)Dry" "Dry"
    (.node "not" [.leaf "Wet"]) rfl
  obtain ⟨used', hused', -, -, hs'⟩ := readLeading_looks_no_further "\tWet )" " )"
    (.leaf "Wet") rfl
  exact ⟨⟨used, hused, hs⟩, used', hused', hs'⟩

end TruthTable.Proofs.Lookahead
