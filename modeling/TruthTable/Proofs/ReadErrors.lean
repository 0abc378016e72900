import TruthTable.Proofs.Lookahead

/-!
# Where reading fails

A text is viable if some text after it makes the whole readable. The reader fails
at the first character that leaves no viable text, and at the end only of a text
that is viable: until then it has advanced to a state, and no state is a dead end.
Positions count characters, and the text up to a position is taken by characters.
-/

namespace TruthTable.Proofs.ReadErrors

open Reader Tokens ReaderRun Lookahead

/-- Some continuation makes the text readable. -/
def Viable (text : String) : Prop :=
  ∃ (more : String) (t : Tree), Tree.read (text ++ more) = .ok t

def first (n : Nat) (text : String) : String :=
  String.ofList (text.toList.take n)

def ViableList (cs : List Char) : Prop :=
  ∃ more t, Tree.readAll (cs ++ more) = .ok t

theorem viable_iff (text : String) : Viable text ↔ ViableList text.toList := by
  constructor
  · rintro ⟨more, t, h⟩
    rw [Tree.read, String.toList_append] at h
    exact ⟨more.toList, t, h⟩
  · rintro ⟨more, t, h⟩
    refine ⟨String.ofList more, t, ?_⟩
    rw [Tree.read, String.toList_append, String.toList_ofList]
    exact h

theorem viable_ofList (cs : List Char) : Viable (String.ofList cs) ↔ ViableList cs := by
  rw [viable_iff, String.toList_ofList]

theorem ViableList.of_append {xs ys : List Char} (h : ViableList (xs ++ ys)) : ViableList xs := by
  obtain ⟨more, t, ht⟩ := h
  exact ⟨ys ++ more, t, by rw [← List.append_assoc]; exact ht⟩

theorem viableList_of_advance {cs : List Char} {st : State} (h : advance .start cs = some st) :
    ViableList cs := by
  obtain ⟨more, t, ht⟩ := exists_finish st
  exact ⟨more, t, readAll_eq_ok_iff.mpr ⟨[], (run_append h more).trans ht, rfl⟩⟩

/-- A rejected character cannot be mended by what follows it. -/
theorem not_viableList_of_reject {xs : List Char} {c : Char} {st : State}
    (h : advance .start xs = some st) (hs : step st c = .reject) : ¬ ViableList (xs ++ [c]) := by
  rintro ⟨more, t, ht⟩
  obtain ⟨rest, hrun, -⟩ := readAll_eq_ok_iff.mp ht
  rw [List.append_assoc, run_append h, List.singleton_append, run, hs] at hrun
  cases hrun

/-- A tree is found without looking further than what may follow a word. -/
theorem run_replace_rest {cs rest : List Char} {t : Tree} (h : run .start cs = .tree t rest) :
    ∃ used, cs = used ++ rest ∧ ∀ rest', (endsWord rest = true → endsWord rest' = true) →
      run .start (used ++ rest') = .tree t rest' := by
  obtain ⟨front, c, rfl, -, hrun⟩ := exists_used h
  refine ⟨front ++ [c], rfl, fun rest' hrest => (hrun rest').mpr ?_⟩
  exact ((hrun rest).mp h).imp_right hrest

/-- What each error says about the run. -/
theorem readAll_eq_error {cs : List Char} {e : ReadError} (h : Tree.readAll cs = .error e) :
    (e = .empty ∧ cs.all isSeparator = true) ∨
      (e = .unterminated ∧ cs.all isSeparator = false ∧ run .start cs = .unterminated) ∨
      (∃ c rest, e = .unexpected c (cs.length - (rest.length + 1)) ∧
        run .start cs = .unexpected c rest) ∨
      ∃ t rest d tail, e = .trailing (cs.length - (tail.length + 1)) ∧
        run .start cs = .tree t rest ∧ rest.dropWhile isSeparator = d :: tail := by
  unfold Tree.readAll at h
  split at h
  · rename_i t rest hl
    cases hd : rest.dropWhile isSeparator with
    | nil => rw [hd] at h; cases h
    | cons d tail =>
      rw [hd] at h
      cases h
      exact Or.inr (Or.inr (Or.inr ⟨t, rest, d, tail, rfl, readLeading_eq_ok_iff.mp hl, hd⟩))
  · rename_i e' hl
    cases h
    unfold Tree.readLeading at hl
    cases hs : cs.all isSeparator with
    | true =>
      rw [hs] at hl
      cases hl
      exact Or.inl ⟨rfl, rfl⟩
    | false =>
      rw [hs] at hl
      cases hr : run .start cs with
      | tree t rest => rw [hr] at hl; cases hl
      | unexpected c rest =>
        rw [hr] at hl
        cases hl
        exact Or.inr (Or.inr (Or.inl ⟨c, rest, rfl, rfl⟩))
      | unterminated =>
        rw [hr] at hl
        cases hl
        exact Or.inr (Or.inl ⟨rfl, rfl, rfl⟩)

theorem take_position {cs xs rest : List Char} {c : Char} (h : cs = xs ++ c :: rest) :
    cs[cs.length - (rest.length + 1)]? = some c ∧ cs.take (cs.length - (rest.length + 1)) = xs ∧
      cs.take (cs.length - (rest.length + 1) + 1) = xs ++ [c] := by
  have hp : cs.length - (rest.length + 1) = xs.length := by
    rw [h, List.length_append, List.length_cons]
    omega
  rw [hp, h]
  refine ⟨by simp, List.take_left, ?_⟩
  rw [List.append_cons]
  exact List.take_left' (by simp)

theorem unexpected_position {cs rest : List Char} {c : Char}
    (h : run .start cs = .unexpected c rest) :
    ∃ xs, cs = xs ++ c :: rest ∧ ViableList xs ∧ ¬ ViableList (xs ++ [c]) := by
  obtain ⟨xs, st, hcs, ha, hs⟩ := run_eq_unexpected h
  exact ⟨xs, hcs, viableList_of_advance ha, not_viableList_of_reject ha hs⟩

/-- Past a finished expression and separators, one character more spoils the text. -/
theorem trailing_position {cs rest tail : List Char} {t : Tree} {d : Char}
    (h : run .start cs = .tree t rest) (hd : rest.dropWhile isSeparator = d :: tail) :
    ∃ xs, cs = xs ++ d :: tail ∧ Tree.readAll xs = .ok t ∧ isSeparator d = false ∧
      ¬ ViableList (xs ++ [d]) := by
  obtain ⟨used, hcs, hreplace⟩ := run_replace_rest h
  have hrest : rest = rest.takeWhile isSeparator ++ d :: tail := by
    rw [← hd, List.takeWhile_append_dropWhile]
  have hsep : isSeparator d = false := by
    have := List.head?_dropWhile_not isSeparator rest
    rwa [hd] at this
  have hgap : (rest.takeWhile isSeparator).all isSeparator = true := List.all_takeWhile
  generalize rest.takeWhile isSeparator = gap at hrest hgap
  subst hrest
  refine ⟨used ++ gap, by rw [hcs, List.append_assoc], ?_, hsep, ?_⟩
  · exact readAll_eq_ok_iff.mpr ⟨gap, hreplace gap fun _ => endsWord_of_separators hgap, hgap⟩
  · rintro ⟨more, u, hu⟩
    obtain ⟨left, hrun, hleft⟩ := readAll_eq_ok_iff.mp hu
    have hsame := hreplace (gap ++ d :: more) fun he => by cases gap <;> exact he
    rw [List.append_assoc, List.append_assoc, List.singleton_append, hsame] at hrun
    cases hrun
    rw [List.all_append, List.all_cons, hsep] at hleft
    simp at hleft

theorem not_separators_of_run {cs : List Char} (h : run .start cs ≠ .unterminated) :
    ¬ cs.all isSeparator = true :=
  fun hs => h (run_start_separators hs)

theorem not_viable_of_spoiled {text : String} {xs rest : List Char} {c : Char}
    (h : text.toList = xs ++ c :: rest) (hn : ¬ ViableList (xs ++ [c])) : ¬ Viable text := by
  rw [viable_iff, h]
  intro hv
  rw [List.append_cons] at hv
  exact hn hv.of_append

/-- **Errors stand at the first bad character.** A text without an expression is
empty; one that could still go on is unterminated; an unexpected character is the
first after which nothing can go on; and trailing input starts at the first
character after a whole expression that is no separator. -/
theorem read_eq_error (text : String) (e : ReadError) (h : Tree.read text = .error e) :
    (e = .empty ↔ text.toList.all isSeparator = true) ∧
    (e = .unterminated ↔ ¬ text.toList.all isSeparator = true ∧ Viable text) ∧
    (∀ c p, e = .unexpected c p → text.toList[p]? = some c ∧ Viable (first p text) ∧
      ¬ Viable (first (p + 1) text)) ∧
    ∀ p, e = .trailing p →
      (∃ t rest, Tree.readLeading text.toList = .ok (t, rest) ∧
        Tree.read (first p text) = .ok t) ∧
      (∃ c, text.toList[p]? = some c ∧ isSeparator c = false) ∧
      ¬ Viable (first (p + 1) text) := by
  rcases readAll_eq_error h with ⟨rfl, hs⟩ | ⟨rfl, hs, hr⟩ | ⟨c, rest, rfl, hr⟩ |
    ⟨t, rest, d, tail, rfl, hr, hd⟩
  · exact ⟨iff_of_true rfl hs, iff_of_false nofun fun hv => hv.1 hs, nofun, nofun⟩
  · obtain ⟨st, ha⟩ := run_eq_unterminated hr
    have hv : Viable text := (viable_iff text).mpr (viableList_of_advance ha)
    have hs' : ¬ text.toList.all isSeparator = true := by rw [hs]; exact Bool.false_ne_true
    exact ⟨iff_of_false nofun hs', iff_of_true rfl ⟨hs', hv⟩, nofun, nofun⟩
  · obtain ⟨xs, hcs, hv, hn⟩ := unexpected_position hr
    have hs : ¬ text.toList.all isSeparator = true := not_separators_of_run (by rw [hr]; nofun)
    refine ⟨iff_of_false nofun hs,
      iff_of_false nofun fun hw => not_viable_of_spoiled hcs hn hw.2, ?_, nofun⟩
    rintro _ _ ⟨⟩
    obtain ⟨hc, htake, htake'⟩ := take_position hcs
    rw [first, first, viable_ofList, viable_ofList, htake, htake']
    exact ⟨hc, hv, hn⟩
  · obtain ⟨xs, hcs, hok, hsep, hn⟩ := trailing_position hr hd
    have hs : ¬ text.toList.all isSeparator = true := not_separators_of_run (by rw [hr]; nofun)
    refine ⟨iff_of_false nofun hs,
      iff_of_false nofun fun hw => not_viable_of_spoiled hcs hn hw.2, nofun, ?_⟩
    rintro _ ⟨⟩
    obtain ⟨hc, htake, htake'⟩ := take_position hcs
    refine ⟨⟨t, rest, readLeading_eq_ok_iff.mpr hr, ?_⟩, ⟨d, hc, hsep⟩, ?_⟩
    · rw [Tree.read, first, htake, String.toList_ofList]
      exact hok
    · rw [first, viable_ofList, htake']
      exact hn

/-- In `(and A ü)` all is well up to the eighth character, whatever its encoding. -/
theorem read_eq_error_beyond_ascii :
    Tree.read "(and A ü)" = .error (.unexpected 'ü' 7) ∧ Viable (first 7 "(and A ü)") ∧
      ¬ Viable (first 8 "(and A ü)") :=
  ⟨rfl, ((read_eq_error "(and A ü)" (.unexpected 'ü' 7) rfl).2.2.1 'ü' 7 rfl).2⟩

end TruthTable.Proofs.ReadErrors
