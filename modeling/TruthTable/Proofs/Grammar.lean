import TruthTable.Proofs.ReaderRun

/-!
# The reader accepts exactly the prefix grammar

A text can be read as a tree exactly if its tokens are the tree's own. From tokens
to tree, the argument follows the tree: one expression after another is finished
and resumed. From tree to tokens it follows the run: each state has settled some
tokens and may hold a word that is still growing, and each character settles the
tokens that it completes.
-/

namespace TruthTable.Proofs.Grammar

open Reader Tokens ReaderRun

/-- A tree whose tokens come next is read, and what follows keeps its tokens. -/
def Reads (t : Tree) : Prop :=
  ∀ (outer : List Frame) (cs : List Char) (ks : List Token), lex cs = some (tokens t ++ ks) →
    ∃ rest, run (ready outer) cs = resume t outer rest ∧ lex rest = some ks

theorem reads_leaf (name : String) : Reads (.leaf name) := by
  intro outer cs ks h
  obtain ⟨gap, text, rest, rfl, hgap, ⟨rfl, hne, hw, he⟩, hrest⟩ := exists_of_lex h
  refine ⟨rest, ?_, hrest⟩
  rw [run_ready_gap outer hgap, run_leaf hne hw outer he, String.ofList_toList]

theorem run_arguments {args : List Tree} (ha : ∀ t ∈ args, Reads t) (f : Frame)
    (outer : List Frame) {cs : List Char} {ks : List Token}
    (h : lex cs = some (tokensEach args ++ ks)) :
    ∃ rest, run (.args f outer) cs = run (.args ⟨f.head, args.reverse ++ f.args⟩ outer) rest ∧
      lex rest = some ks := by
  induction args generalizing f cs with
  | nil => exact ⟨cs, rfl, h⟩
  | cons t args ih =>
    rw [tokensEach, List.append_assoc] at h
    obtain ⟨mid, hmid, hlex⟩ := ha t (by simp) (f :: outer) cs _ h
    obtain ⟨rest, hrest, hks⟩ := ih (fun u hu => ha u (by simp [hu])) (f.add t) hlex
    refine ⟨rest, ?_, hks⟩
    rw [List.reverse_cons, List.append_assoc]
    exact hmid.trans hrest

theorem reads_node {head : String} {args : List Tree} (ha : ∀ t ∈ args, Reads t) :
    Reads (.node head args) := by
  intro outer cs ks h
  rw [tokens, List.cons_append, List.cons_append, List.append_assoc] at h
  obtain ⟨gap, _, cs₁, rfl, hgap, rfl, h₁⟩ := exists_of_lex h
  obtain ⟨gap₁, _, cs₂, rfl, hgap₁, ⟨rfl, hne, hw, he⟩, h₂⟩ := exists_of_lex h₁
  obtain ⟨cs₃, hargs, h₃⟩ := run_arguments ha ⟨head, []⟩ outer h₂
  obtain ⟨gap₃, _, rest, rfl, hgap₃, rfl, hrest⟩ := exists_of_lex h₃
  refine ⟨rest, ?_, hrest⟩
  calc run (ready outer) (gap ++ (['('] ++ (gap₁ ++ (head.toList ++ cs₂))))
    _ = run (.openHead outer) (gap₁ ++ (head.toList ++ cs₂)) := by
        rw [run_ready_gap outer hgap]
        exact run_opening outer _
    _ = run (.args ⟨head, []⟩ outer) cs₂ := by
        rw [run_openHead_gap outer hgap₁, run_head hne hw outer he,
          String.ofList_toList]
    _ = run (.args ⟨head, args.reverse ++ []⟩ outer) (gap₃ ++ ([')'] ++ rest)) := hargs
    _ = resume (.node head args) outer rest := by
        have hskip := run_ready_gap (⟨head, args.reverse ++ []⟩ :: outer) hgap₃ ([')'] ++ rest)
        rw [ready] at hskip
        rw [hskip, List.singleton_append, run_closing, Frame.close, List.append_nil,
          List.reverse_reverse]

theorem reads (t : Tree) : Reads t := by
  induction t using Tree.induction with
  | leaf name => exact reads_leaf name
  | node head args ih => exact reads_node ih

def frameTokens (f : Frame) : List Token :=
  .opening :: .word f.head :: tokensEach f.args.reverse

theorem frameTokens_add (f : Frame) (t : Tree) :
    frameTokens (f.add t) = frameTokens f ++ tokens t := by
  simp [frameTokens, Frame.add, tokensEach_append, tokensEach]

theorem tokens_close (f : Frame) : tokens f.close = frameTokens f ++ [.closing] := by
  simp [frameTokens, Frame.close, tokens]

/-- The tokens of the open compounds, outermost first. -/
def stackTokens : List Frame → List Token
  | [] => []
  | f :: outer => stackTokens outer ++ frameTokens f

/-- The tokens that a state has settled. -/
def settled : State → List Token
  | .start => []
  | .openHead outer => stackTokens outer ++ [.opening]
  | .head _ outer => stackTokens outer ++ [.opening]
  | .args f outer => stackTokens (f :: outer)
  | .atom _ outer => stackTokens outer

/-- The word that a state is in the middle of. -/
def under : State → List Char
  | .head w _ => w.reverse
  | .atom w _ => w.reverse
  | _ => []

/-- A word under way has begun, and has only word characters. -/
def WellFormed : State → Prop
  | .head w _ => w ≠ [] ∧ w.all isWordChar = true
  | .atom w _ => w ≠ [] ∧ w.all isWordChar = true
  | _ => True

theorem lex_under {w : List Char} (hw : w ≠ [] ∧ w.all isWordChar = true) {cs : List Char}
    (he : endsWord cs = true) :
    lex (w.reverse ++ cs) = (lex cs).map (Token.word (wordOf w) :: ·) :=
  lex_word (by simpa using hw.1) (by simpa using hw.2) he

/-- The character goes on with the expression and settles the new tokens. -/
def Goes (st : State) (c : Char) (st' : State) : Prop :=
  WellFormed st' ∧ ∃ new, settled st' = settled st ++ new ∧
    ∀ cs, lex (under st ++ c :: cs) = (lex (under st' ++ cs)).map (new ++ ·)

/-- The character finishes a compound inside those around it. -/
def Finishes (st : State) (c : Char) (t : Tree) (outer : List Frame) : Prop :=
  ∃ new, stackTokens outer ++ tokens t = settled st ++ new ∧
    ∀ cs, lex (under st ++ c :: cs) = (lex cs).map (new ++ ·)

theorem goes_of_lex_eq {st st' : State} {c : Char} (hw : WellFormed st')
    (hs : settled st' = settled st)
    (hl : ∀ cs, lex (under st ++ c :: cs) = lex (under st' ++ cs)) : Goes st c st' := by
  refine ⟨hw, [], by rw [hs, List.append_nil], fun cs => ?_⟩
  rw [hl]
  simp

theorem goes_separator (st : State) (hu : under st = []) (hw : WellFormed st) {c : Char}
    (hc : isSeparator c = true) : Goes st c st := by
  refine goes_of_lex_eq hw rfl fun cs => ?_
  rw [hu]
  exact lex_separator hc cs

/-- What a step can do, and which tokens it settles. -/
def StepSpec (st : State) (c : Char) : Prop :=
  (∃ st', step st c = .next st' ∧ Goes st c st') ∨
    (∃ t outer, step st c = deliver t outer ∧ Finishes st c t outer) ∨
      (∃ w, st = .atom w [] ∧ step st c = .before (.leaf (wordOf w))) ∨ step st c = .reject

theorem step_start (c : Char) : StepSpec .start c := by
  by_cases hs : isSeparator c = true
  · exact Or.inl ⟨.start, by simp [step, hs], goes_separator .start rfl trivial hs⟩
  by_cases ho : c = '('
  · subst ho
    exact Or.inl ⟨.openHead [], rfl, trivial, [.opening], rfl, lex_opening⟩
  by_cases hw : isWordChar c = true
  · refine Or.inl ⟨.atom [c] [], by simp [step, hs, ho, hw], ?_⟩
    exact goes_of_lex_eq ⟨by simp, by simp [hw]⟩ rfl fun cs => rfl
  · exact Or.inr (Or.inr (Or.inr (by simp [step, hs, ho, hw])))

theorem step_openHead (outer : List Frame) (c : Char) : StepSpec (.openHead outer) c := by
  by_cases hs : isSeparator c = true
  · exact Or.inl ⟨.openHead outer, by simp [step, hs],
      goes_separator (.openHead outer) rfl trivial hs⟩
  by_cases hw : isWordChar c = true
  · refine Or.inl ⟨.head [c] outer, by simp [step, hs, hw], ?_⟩
    exact goes_of_lex_eq ⟨by simp, by simp [hw]⟩ rfl fun cs => rfl
  · exact Or.inr (Or.inr (Or.inr (by simp [step, hs, hw])))

theorem step_head {w : List Char} (hwf : w ≠ [] ∧ w.all isWordChar = true)
    (outer : List Frame) (c : Char) : StepSpec (.head w outer) c := by
  by_cases hw : isWordChar c = true
  · refine Or.inl ⟨.head (c :: w) outer, by simp [step, hw], ?_⟩
    exact goes_of_lex_eq ⟨by simp, by simp [hw, hwf.2]⟩ rfl fun cs => by simp [under]
  by_cases hs : isSeparator c = true
  · refine Or.inl ⟨.args ⟨wordOf w, []⟩ outer, by simp [step, hw, hs], trivial,
      [.word (wordOf w)], by simp [settled, stackTokens, frameTokens, tokensEach], fun cs => ?_⟩
    rw [under, lex_under hwf (endsWord_cons.mpr (Or.inl hs)), lex_separator hs]
    rfl
  by_cases hc : c = ')'
  · subst hc
    refine Or.inr (Or.inl ⟨.node (wordOf w) [], outer, rfl, [.word (wordOf w), .closing],
      by simp [settled, tokens, tokensEach], fun cs => ?_⟩)
    rw [under, lex_under hwf (endsWord_cons.mpr (Or.inr rfl)), lex_closing, Option.map_map]
    rfl
  · exact Or.inr (Or.inr (Or.inr (by simp [step, hw, hs, hc])))

theorem step_args (f : Frame) (outer : List Frame) (c : Char) : StepSpec (.args f outer) c := by
  by_cases hs : isSeparator c = true
  · exact Or.inl ⟨.args f outer, by simp [step, hs],
      goes_separator (.args f outer) rfl trivial hs⟩
  by_cases hc : c = ')'
  · subst hc
    refine Or.inr (Or.inl ⟨f.close, outer, rfl, [.closing], ?_, lex_closing⟩)
    rw [tokens_close, settled, stackTokens, List.append_assoc]
  by_cases ho : c = '('
  · subst ho
    exact Or.inl ⟨.openHead (f :: outer), rfl, trivial, [.opening], rfl, lex_opening⟩
  by_cases hw : isWordChar c = true
  · refine Or.inl ⟨.atom [c] (f :: outer), by simp [step, hs, hc, ho, hw], ?_⟩
    exact goes_of_lex_eq ⟨by simp, by simp [hw]⟩ rfl fun cs => rfl
  · exact Or.inr (Or.inr (Or.inr (by simp [step, hs, hc, ho, hw])))

theorem step_atom {w : List Char} (hwf : w ≠ [] ∧ w.all isWordChar = true)
    (outer : List Frame) (c : Char) : StepSpec (.atom w outer) c := by
  by_cases hw : isWordChar c = true
  · refine Or.inl ⟨.atom (c :: w) outer, by simp [step, hw], ?_⟩
    exact goes_of_lex_eq ⟨by simp, by simp [hw, hwf.2]⟩ rfl fun cs => by simp [under]
  by_cases hend : endsWord [c] = true
  · rcases endsWord_cons.mp hend with hs | rfl
    · have hc : c ≠ ')' := by
        rintro rfl
        revert hs
        decide
      cases outer with
      | nil => exact Or.inr (Or.inr (Or.inl ⟨w, rfl, by simp [step, hw, hs]⟩))
      | cons f outer =>
        refine Or.inl ⟨.args (f.add (.leaf (wordOf w))) outer, by simp [step, hw, hs, hc], trivial,
          [.word (wordOf w)], ?_, fun cs => ?_⟩
        · rw [settled, stackTokens, frameTokens_add, ← List.append_assoc]
          rfl
        · rw [under, lex_under hwf (endsWord_cons.mpr (Or.inl hs)), lex_separator hs]
          rfl
    · cases outer with
      | nil => exact Or.inr (Or.inr (Or.inl ⟨w, rfl, rfl⟩))
      | cons f outer =>
        refine Or.inr (Or.inl ⟨(f.add (.leaf (wordOf w))).close, outer, rfl,
          [.word (wordOf w), .closing], ?_, fun cs => ?_⟩)
        · rw [tokens_close, frameTokens_add, settled, stackTokens, tokens]
          simp
        · rw [under, lex_under hwf (endsWord_cons.mpr (Or.inr rfl)), lex_closing, Option.map_map]
          rfl
  · rw [endsWord_cons, not_or] at hend
    exact Or.inr (Or.inr (Or.inr (by simp [step, hw, hend.1, hend.2])))

theorem step_spec {st : State} (hw : WellFormed st) (c : Char) : StepSpec st c := by
  cases st with
  | start => exact step_start c
  | openHead outer => exact step_openHead outer c
  | head w outer => exact step_head hw outer c
  | args f outer => exact step_args f outer c
  | atom w outer => exact step_atom hw outer c

theorem lex_last_word {w : List Char} (hw : w ≠ [] ∧ w.all isWordChar = true) {rest : List Char}
    (hr : rest.all isSeparator = true) :
    lex (w.reverse ++ rest) = some (tokens (.leaf (wordOf w))) := by
  rw [lex_under hw (endsWord_of_separators hr), lex_separators hr]
  rfl

/-- **Soundness.** What a run reads, followed by separators only, has tokens, and
with those settled before they are the tokens of the tree. -/
theorem lex_of_run {st : State} {cs rest : List Char} {t : Tree} (hw : WellFormed st)
    (h : run st cs = .tree t rest) (hr : rest.all isSeparator = true) :
    ∃ ks, lex (under st ++ cs) = some ks ∧ settled st ++ ks = tokens t := by
  induction cs generalizing st with
  | nil =>
    obtain ⟨w, rfl, rfl, rfl⟩ := finish_eq_tree h
    exact ⟨_, lex_last_word hw hr, rfl⟩
  | cons c cs ih =>
    rcases step_spec hw c with ⟨st', hs, hw', new, hnew, hlex⟩ |
      ⟨u, outer, hs, new, hnew, hlex⟩ | ⟨w, rfl, hs⟩ | hs
    · rw [run_next hs] at h
      obtain ⟨ks, hks, ht⟩ := ih hw' h
      refine ⟨new ++ ks, by rw [hlex, hks]; rfl, ?_⟩
      rw [← ht, hnew, List.append_assoc]
    · rw [run_of_deliver hs] at h
      cases outer with
      | nil =>
        cases h
        refine ⟨new, by rw [hlex, lex_separators hr]; simp, ?_⟩
        rw [← hnew]
        rfl
      | cons f outer =>
        have hwf : WellFormed (.args (f.add u) outer) := trivial
        obtain ⟨ks, hks, ht⟩ := ih hwf h
        refine ⟨new ++ ks, by rw [hlex]; exact congrArg (Option.map (new ++ ·)) hks, ?_⟩
        rw [← ht, ← List.append_assoc, ← hnew, settled, stackTokens, stackTokens, frameTokens_add,
          List.append_assoc (stackTokens outer)]
    · rw [run, hs] at h
      cases h
      exact ⟨_, lex_last_word hw hr, rfl⟩
    · rw [run, hs] at h
      cases h

/-- **The reader and the grammar.** A text is read as a tree exactly if it has
tokens and they are those of the tree. -/
theorem read_eq_ok_iff (text : String) (t : Tree) :
    Tree.read text = .ok t ↔ lex text.toList = some (tokens t) := by
  rw [Tree.read, readAll_eq_ok_iff]
  constructor
  · rintro ⟨rest, hrun, hrest⟩
    have hwf : WellFormed .start := trivial
    obtain ⟨ks, hks, ht⟩ := lex_of_run hwf hrun hrest
    rw [← ht]
    exact hks
  · intro h
    obtain ⟨rest, hrun, hrest⟩ := reads t [] text.toList [] (by rw [h, List.append_nil])
    exact ⟨rest, hrun, separators_of_lex hrest⟩

example : Tree.read "(and (not A)B)" = .ok (.node "and" [.node "not" [.leaf "A"], .leaf "B"]) :=
  rfl

example : Tree.read "(and(not A))" = .error (.unexpected '(' 4) :=
  rfl

end TruthTable.Proofs.Grammar
