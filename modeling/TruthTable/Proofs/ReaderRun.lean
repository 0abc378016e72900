import Mathlib.Data.List.TakeWhile
import TruthTable.Proofs.Tokens

/-!
# Runs of the reader

A run advances through states for as long as the expression goes on and then
stops at a state or at a character. Between two expressions the machine is ready
for the next one, and a finished expression resumes whatever stands around it. No
state is a dead end: from each there is a text that finishes the expression.
-/

namespace TruthTable.Proofs.ReaderRun

open Reader Tokens

theorem run_next {st st' : State} {c : Char} (h : step st c = .next st') (cs : List Char) :
    run st (c :: cs) = run st' cs := by
  rw [run, h]

/-- The state after characters that all go on with the expression. -/
def advance : State → List Char → Option State
  | state, [] => some state
  | state, c :: cs =>
    match step state c with
    | .next state => advance state cs
    | _ => none

theorem advance_cons {st st' : State} {c : Char} {cs : List Char}
    (h : advance st (c :: cs) = some st') :
    ∃ mid, step st c = .next mid ∧ advance mid cs = some st' := by
  rw [advance] at h
  cases hs : step st c with
  | next mid => rw [hs] at h; exact ⟨mid, rfl, h⟩
  | last t => rw [hs] at h; cases h
  | before t => rw [hs] at h; cases h
  | reject => rw [hs] at h; cases h

theorem run_append {st st' : State} {xs : List Char} (h : advance st xs = some st')
    (ys : List Char) : run st (xs ++ ys) = run st' ys := by
  induction xs generalizing st with
  | nil =>
    obtain rfl := Option.some.inj h
    rfl
  | cons c xs ih =>
    obtain ⟨mid, hs, hmid⟩ := advance_cons h
    rw [List.cons_append, run_next hs]
    exact ih hmid

/-- What a run comes to at the character where it stops. -/
def stopAt (c : Char) (rest : List Char) : Step → Option Reader.Outcome
  | .next _ => none
  | .last t => some (.tree t rest)
  | .before t => some (.tree t (c :: rest))
  | .reject => some (.unexpected c rest)

/-- **Every run stops**, at the end of the text or at one of its characters. -/
theorem run_stops (st : State) (cs : List Char) :
    (∃ st', advance st cs = some st' ∧ run st cs = finish st') ∨
      ∃ xs c rest st', cs = xs ++ c :: rest ∧ advance st xs = some st' ∧
        stopAt c rest (step st' c) = some (run st cs) := by
  induction cs generalizing st with
  | nil => exact Or.inl ⟨st, rfl, rfl⟩
  | cons d cs ih =>
    cases hs : step st d with
    | next next =>
      have hrun := run_next hs cs
      rcases ih next with ⟨st', ha, hr⟩ | ⟨xs, c, rest, st', hcs, ha, hstop⟩
      · refine Or.inl ⟨st', ?_, hrun.trans hr⟩
        rw [advance, hs]
        exact ha
      · refine Or.inr ⟨d :: xs, c, rest, st', by rw [hcs]; rfl, ?_, by rw [hrun]; exact hstop⟩
        rw [advance, hs]
        exact ha
    | last t => exact Or.inr ⟨[], d, cs, st, rfl, rfl, by rw [run, hs]; rfl⟩
    | before t => exact Or.inr ⟨[], d, cs, st, rfl, rfl, by rw [run, hs]; rfl⟩
    | reject => exact Or.inr ⟨[], d, cs, st, rfl, rfl, by rw [run, hs]; rfl⟩

theorem finish_eq_tree {st : State} {t : Tree} {rest : List Char}
    (h : finish st = .tree t rest) :
    ∃ w, st = .atom w [] ∧ t = .leaf (wordOf w) ∧ rest = [] := by
  unfold finish at h
  split at h
  · cases h
    exact ⟨_, rfl, rfl, rfl⟩
  · cases h

theorem deliver_ne_before (t u : Tree) (outer : List Frame) : deliver t outer ≠ .before u := by
  cases outer <;> exact Step.noConfusion

theorem step_eq_before {st : State} {c : Char} {t : Tree} (h : step st c = .before t) :
    ∃ w, st = .atom w [] ∧ t = .leaf (wordOf w) ∧ (isSeparator c = true ∨ c = ')') := by
  cases st with
  | start =>
    rw [step] at h
    split_ifs at h
  | openHead outer =>
    rw [step] at h
    split_ifs at h
  | head w outer =>
    rw [step] at h
    split_ifs at h
    exact absurd h (deliver_ne_before _ _ _)
  | args f outer =>
    rw [step] at h
    split_ifs at h
    exact absurd h (deliver_ne_before _ _ _)
  | atom w outer =>
    cases outer with
    | nil =>
      simp only [step] at h
      split_ifs at h with hw hend
      cases h
      exact ⟨w, rfl, rfl, by simpa using hend⟩
    | cons f outer =>
      simp only [step] at h
      split_ifs at h
      exact absurd h (deliver_ne_before _ _ _)

/-- A run that finds a tree stops at its last character or right after its word. -/
theorem run_eq_tree {st : State} {cs rest : List Char} {t : Tree}
    (h : run st cs = .tree t rest) :
    (∃ xs c st', cs = xs ++ c :: rest ∧ advance st xs = some st' ∧ step st' c = .last t) ∨
      ∃ xs w, cs = xs ++ rest ∧ advance st xs = some (.atom w []) ∧ t = .leaf (wordOf w) ∧
        endsWord rest = true := by
  rcases run_stops st cs with ⟨st', ha, hr⟩ | ⟨xs, c, tail, st', hcs, ha, hstop⟩
  · obtain ⟨w, rfl, rfl, rfl⟩ := finish_eq_tree (hr.symm.trans h)
    exact Or.inr ⟨cs, w, (List.append_nil cs).symm, ha, rfl, rfl⟩
  · rw [h] at hstop
    cases hs : step st' c with
    | next next => rw [hs] at hstop; cases hstop
    | last u =>
      rw [hs] at hstop
      cases hstop
      exact Or.inl ⟨xs, c, st', hcs, ha, hs⟩
    | before u =>
      rw [hs] at hstop
      cases hstop
      obtain ⟨w, rfl, rfl, hend⟩ := step_eq_before hs
      exact Or.inr ⟨xs, w, hcs, ha, rfl, endsWord_cons.mpr hend⟩
    | reject => rw [hs] at hstop; cases hstop

theorem run_eq_unexpected {st : State} {cs rest : List Char} {c : Char}
    (h : run st cs = .unexpected c rest) :
    ∃ xs st', cs = xs ++ c :: rest ∧ advance st xs = some st' ∧ step st' c = .reject := by
  rcases run_stops st cs with ⟨st', ha, hr⟩ | ⟨xs, d, tail, st', hcs, ha, hstop⟩
  · rw [h] at hr
    unfold finish at hr
    split at hr <;> cases hr
  · rw [h] at hstop
    cases hs : step st' d with
    | reject =>
      rw [hs] at hstop
      cases hstop
      exact ⟨xs, st', hcs, ha, hs⟩
    | next next => rw [hs] at hstop; cases hstop
    | last u => rw [hs] at hstop; cases hstop
    | before u => rw [hs] at hstop; cases hstop

theorem run_eq_unterminated {st : State} {cs : List Char} (h : run st cs = .unterminated) :
    ∃ st', advance st cs = some st' := by
  rcases run_stops st cs with ⟨st', ha, hr⟩ | ⟨xs, d, tail, st', hcs, ha, hstop⟩
  · exact ⟨st', ha⟩
  · rw [h] at hstop
    cases hs : step st' d <;> rw [hs] at hstop <;> cases hstop

/-- The state in which the next expression may start. -/
def ready : List Frame → State
  | [] => .start
  | f :: outer => .args f outer

/-- How a run goes on once an expression is finished. -/
def resume (t : Tree) : List Frame → List Char → Reader.Outcome
  | [], cs => .tree t cs
  | f :: outer, cs => run (.args (f.add t) outer) cs

theorem run_of_deliver {st : State} {c : Char} {t : Tree} {outer : List Frame}
    (h : step st c = deliver t outer) (cs : List Char) :
    run st (c :: cs) = resume t outer cs := by
  rw [run, h]
  cases outer <;> rfl

theorem run_closing (f : Frame) (outer : List Frame) (cs : List Char) :
    run (.args f outer) (')' :: cs) = resume f.close outer cs :=
  run_of_deliver rfl cs

theorem run_opening (outer : List Frame) (cs : List Char) :
    run (ready outer) ('(' :: cs) = run (.openHead outer) cs := by
  cases outer <;> rfl

theorem run_gap {st : State} (hst : ∀ {c : Char}, isSeparator c = true → step st c = .next st)
    {gap : List Char} (hg : gap.all isSeparator = true) (cs : List Char) :
    run st (gap ++ cs) = run st cs := by
  induction gap with
  | nil => rfl
  | cons c gap ih =>
    rw [List.all_cons, Bool.and_eq_true] at hg
    rw [List.cons_append, run_next (hst hg.1)]
    exact ih hg.2

theorem run_ready_gap (outer : List Frame) {gap : List Char} (hg : gap.all isSeparator = true)
    (cs : List Char) : run (ready outer) (gap ++ cs) = run (ready outer) cs := by
  apply run_gap _ hg
  intro c hc
  cases outer <;> simp [ready, step, hc]

theorem run_openHead_gap (outer : List Frame) {gap : List Char} (hg : gap.all isSeparator = true)
    (cs : List Char) : run (.openHead outer) (gap ++ cs) = run (.openHead outer) cs := by
  apply run_gap _ hg
  intro c hc
  simp [step, hc]

theorem wordOf_reverse (w : List Char) : wordOf w.reverse = String.ofList w := by
  rw [wordOf, List.reverse_reverse]

/-- A word grows by word characters wherever each of them extends it. -/
theorem run_word (hold : List Char → State)
    (hh : ∀ (u : List Char) {c : Char}, isWordChar c = true →
      step (hold u) c = .next (hold (c :: u)))
    {w : List Char} (hw : w.all isWordChar = true) (u cs : List Char) :
    run (hold u) (w ++ cs) = run (hold (w.reverse ++ u)) cs := by
  induction w generalizing u with
  | nil => rfl
  | cons c w ih =>
    rw [List.all_cons, Bool.and_eq_true] at hw
    rw [List.cons_append, run_next (hh u hw.1), ih hw.2, List.reverse_cons, List.append_assoc]
    rfl

/-- At the end of a bare word the word is a finished expression. -/
theorem run_atom_end (w : List Char) (outer : List Frame) {cs : List Char}
    (he : endsWord cs = true) :
    run (.atom w outer) cs = resume (.leaf (wordOf w)) outer cs := by
  cases cs with
  | nil => cases outer <;> rfl
  | cons c cs =>
    have hc := (not_wordChar_of_endsWord he).1
    rcases endsWord_cons.mp he with hs | rfl
    · have hne : (c == ')') = false := by
        rw [beq_eq_false_iff_ne]
        rintro rfl
        revert hs
        decide
      cases outer with
      | nil => simp [run, step, hc, hs, resume]
      | cons f outer => simp [run, step, hc, hs, hne, resume]
    · cases outer with
      | nil => rfl
      | cons f outer => exact (run_of_deliver rfl cs).trans (run_closing _ outer cs).symm

theorem run_head_end (w : List Char) (outer : List Frame) {cs : List Char}
    (he : endsWord cs = true) :
    run (.head w outer) cs = run (.args ⟨wordOf w, []⟩ outer) cs := by
  cases cs with
  | nil => rfl
  | cons c cs =>
    have hc := (not_wordChar_of_endsWord he).1
    rcases endsWord_cons.mp he with hs | rfl
    · simp [run, step, hc, hs]
    · exact (run_of_deliver rfl cs).trans (run_closing _ outer cs).symm

theorem run_leaf {w : List Char} (hne : w ≠ []) (hw : w.all isWordChar = true)
    (outer : List Frame) {cs : List Char} (he : endsWord cs = true) :
    run (ready outer) (w ++ cs) = resume (.leaf (String.ofList w)) outer cs := by
  cases w with
  | nil => exact absurd rfl hne
  | cons c w =>
    rw [List.all_cons, Bool.and_eq_true] at hw
    obtain ⟨hsep, hopen, hclose⟩ := ne_of_wordChar hw.1
    have hs : step (ready outer) c = .next (.atom [c] outer) := by
      cases outer <;> simp [ready, step, hsep, hopen, hclose, hw.1]
    rw [List.cons_append, run_next hs, ← wordOf_reverse, List.reverse_cons,
      run_word (State.atom · outer) (fun u d hd => by simp [step, hd]) hw.2]
    exact run_atom_end _ outer he

theorem run_head {w : List Char} (hne : w ≠ []) (hw : w.all isWordChar = true)
    (outer : List Frame) {cs : List Char} (he : endsWord cs = true) :
    run (.openHead outer) (w ++ cs) = run (.args ⟨String.ofList w, []⟩ outer) cs := by
  cases w with
  | nil => exact absurd rfl hne
  | cons c w =>
    rw [List.all_cons, Bool.and_eq_true] at hw
    obtain ⟨hsep, -, -⟩ := ne_of_wordChar hw.1
    have hs : step (.openHead outer) c = .next (.head [c] outer) := by simp [step, hsep, hw.1]
    rw [List.cons_append, run_next hs, ← wordOf_reverse, List.reverse_cons,
      run_word (State.head · outer) (fun u d hd => by simp [step, hd]) hw.2]
    exact run_head_end _ outer he

/-- Closing every open compound finishes the outermost expression. -/
theorem resume_closings (t : Tree) (outer : List Frame) :
    ∃ u, resume t outer (List.replicate outer.length ')') = .tree u [] := by
  induction outer generalizing t with
  | nil => exact ⟨t, rfl⟩
  | cons f outer ih =>
    obtain ⟨u, hu⟩ := ih (f.add t).close
    refine ⟨u, ?_⟩
    rw [List.length_cons, List.replicate_succ, resume, run_closing]
    exact hu

theorem run_args_closings (f : Frame) (outer : List Frame) :
    ∃ u, run (.args f outer) (')' :: List.replicate outer.length ')') = .tree u [] := by
  obtain ⟨u, hu⟩ := resume_closings f.close outer
  exact ⟨u, (run_closing f outer _).trans hu⟩

/-- **From every state some text finishes the expression.** -/
theorem exists_finish (st : State) : ∃ cs t, run st cs = .tree t [] := by
  cases st with
  | start => exact ⟨['a'], _, rfl⟩
  | openHead outer =>
    obtain ⟨u, hu⟩ := run_args_closings ⟨String.ofList ['a'], []⟩ outer
    exact ⟨['a'] ++ (')' :: List.replicate outer.length ')'), u,
      (run_head (by decide) (by decide) outer rfl).trans hu⟩
  | head w outer =>
    obtain ⟨u, hu⟩ := run_args_closings ⟨wordOf w, []⟩ outer
    exact ⟨_, u, (run_head_end w outer rfl).trans hu⟩
  | args f outer =>
    obtain ⟨u, hu⟩ := run_args_closings f outer
    exact ⟨_, u, hu⟩
  | atom w outer =>
    obtain ⟨u, hu⟩ := resume_closings (.leaf (wordOf w)) outer
    have he : endsWord (List.replicate outer.length ')') = true := by
      cases outer <;> rfl
    exact ⟨_, u, (run_atom_end w outer he).trans hu⟩

theorem run_start_separators {cs : List Char} (h : cs.all isSeparator = true) :
    run .start cs = .unterminated := by
  have hgap := run_ready_gap [] h []
  rw [List.append_nil] at hgap
  exact hgap

theorem readLeading_eq_ok_iff {cs rest : List Char} {t : Tree} :
    Tree.readLeading cs = .ok (t, rest) ↔ run .start cs = .tree t rest := by
  unfold Tree.readLeading
  cases hs : cs.all isSeparator with
  | true => simp [run_start_separators hs]
  | false => cases run .start cs <;> simp

theorem readAll_eq_ok_iff {cs : List Char} {t : Tree} :
    Tree.readAll cs = .ok t ↔
      ∃ rest, run .start cs = .tree t rest ∧ rest.all isSeparator = true := by
  unfold Tree.readAll
  constructor
  · intro h
    split at h
    · rename_i u rest hl
      split at h
      · rename_i hd
        cases h
        exact ⟨rest, readLeading_eq_ok_iff.mp hl,
          List.all_eq_true.mpr (List.dropWhile_eq_nil_iff.mp hd)⟩
      · cases h
    · cases h
  · rintro ⟨rest, hrun, hrest⟩
    rw [readLeading_eq_ok_iff.mpr hrun]
    simp only [List.dropWhile_eq_nil_iff.mpr (List.all_eq_true.mp hrest)]

end TruthTable.Proofs.ReaderRun
