import Mathlib.Tactic.SplitIfs
import TruthTable.Tree.Reader

/-!
# Tokens of a text and of a tree

A text is cut into parentheses and words of greatest length, with separators
skipped. It has tokens only if it holds no other character and no word stands
right before an opening parenthesis. A tree has the tokens that spell it out. The
two lists are defined apart from each other and from the reader.
-/

namespace TruthTable.Proofs.Tokens

inductive Token where
  | opening
  | closing
  | word (name : String)
deriving DecidableEq

/-- The tokens of a text, if it has any. -/
def lex : List Char → Option (List Token)
  | [] => some []
  | c :: cs =>
    if isSeparator c then lex cs
    else if c == '(' then (lex cs).map (Token.opening :: ·)
    else if c == ')' then (lex cs).map (Token.closing :: ·)
    else if isWordChar c then
      if (cs.dropWhile isWordChar).head? = some '(' then none
      else (lex (cs.dropWhile isWordChar)).map
        (Token.word (String.ofList (c :: cs.takeWhile isWordChar)) :: ·)
    else none
termination_by cs => cs.length
decreasing_by
  all_goals simp only [List.length_cons]
  all_goals have h := (List.dropWhile_sublist isWordChar (l := cs)).length_le
  all_goals omega

example : lex ['(', 'a', '\n', 'b', ')', 'c'] =
    some [.opening, .word "a", .word "b", .closing, .word "c"] := by cbv

mutual

def tokens : Tree → List Token
  | .leaf name => [.word name]
  | .node head args => .opening :: .word head :: (tokensEach args ++ [.closing])

def tokensEach : List Tree → List Token
  | [] => []
  | t :: ts => tokens t ++ tokensEach ts

end

theorem tokensEach_append (ts us : List Tree) :
    tokensEach (ts ++ us) = tokensEach ts ++ tokensEach us := by
  induction ts with
  | nil => rfl
  | cons t ts ih => rw [List.cons_append, tokensEach, tokensEach, ih, List.append_assoc]

theorem not_wordChar_of_separator {c : Char} (h : isSeparator c = true) :
    isWordChar c = false := by
  simp only [isSeparator, Bool.or_eq_true, beq_iff_eq] at h
  rcases h with ((rfl | rfl) | rfl) | rfl <;> decide

theorem ne_of_wordChar {c : Char} (h : isWordChar c = true) :
    isSeparator c = false ∧ (c == '(') = false ∧ (c == ')') = false := by
  refine ⟨?_, ?_, ?_⟩
  · cases hs : isSeparator c with
    | false => rfl
    | true => rw [not_wordChar_of_separator hs] at h; cases h
  · rw [beq_eq_false_iff_ne]
    rintro rfl
    revert h
    decide
  · rw [beq_eq_false_iff_ne]
    rintro rfl
    revert h
    decide

/-- What may follow a word: nothing, a separator or a closing parenthesis. -/
def endsWord : List Char → Bool
  | [] => true
  | c :: _ => isSeparator c || c == ')'

theorem endsWord_cons {c : Char} {cs : List Char} :
    endsWord (c :: cs) = true ↔ isSeparator c = true ∨ c = ')' := by
  simp [endsWord]

theorem not_wordChar_of_endsWord {c : Char} {cs : List Char} (h : endsWord (c :: cs) = true) :
    isWordChar c = false ∧ c ≠ '(' := by
  rcases endsWord_cons.mp h with hs | rfl
  · refine ⟨not_wordChar_of_separator hs, ?_⟩
    rintro rfl
    revert hs
    decide
  · decide

theorem endsWord_of_separators {cs : List Char} (h : cs.all isSeparator = true) :
    endsWord cs = true := by
  cases cs with
  | nil => rfl
  | cons c cs =>
    rw [List.all_cons, Bool.and_eq_true] at h
    exact endsWord_cons.mpr (Or.inl h.1)

theorem lex_separator {c : Char} (h : isSeparator c = true) (cs : List Char) :
    lex (c :: cs) = lex cs := by
  rw [lex, if_pos h]

theorem lex_opening (cs : List Char) : lex ('(' :: cs) = (lex cs).map (Token.opening :: ·) := by
  rw [lex]
  rfl

theorem lex_closing (cs : List Char) : lex (')' :: cs) = (lex cs).map (Token.closing :: ·) := by
  rw [lex]
  rfl

theorem lex_gap {gap : List Char} (h : gap.all isSeparator = true) (cs : List Char) :
    lex (gap ++ cs) = lex cs := by
  induction gap with
  | nil => rfl
  | cons c gap ih =>
    rw [List.all_cons, Bool.and_eq_true] at h
    rw [List.cons_append, lex_separator h.1, ih h.2]

theorem lex_separators {cs : List Char} (h : cs.all isSeparator = true) : lex cs = some [] := by
  have hgap := lex_gap h []
  rw [List.append_nil] at hgap
  rw [hgap, lex]

/-- A run of word characters is one word where the text after it ends a word. -/
theorem lex_word {w : List Char} (hw : w ≠ []) (hc : w.all isWordChar = true) {cs : List Char}
    (he : endsWord cs = true) :
    lex (w ++ cs) = (lex cs).map (Token.word (String.ofList w) :: ·) := by
  have hstop : cs.takeWhile isWordChar = [] ∧ cs.dropWhile isWordChar = cs ∧
      cs.head? ≠ some '(' := by
    cases cs with
    | nil => simp
    | cons d ds =>
      obtain ⟨hd, hne⟩ := not_wordChar_of_endsWord he
      simp [hd, hne]
  obtain ⟨htake, hdrop, hhead⟩ := hstop
  cases w with
  | nil => exact absurd rfl hw
  | cons c w =>
    rw [List.all_cons, Bool.and_eq_true] at hc
    obtain ⟨hsep, hopen, hclose⟩ := ne_of_wordChar hc.1
    have hall : ∀ d ∈ w, isWordChar d = true := List.all_eq_true.mp hc.2
    rw [List.cons_append, lex, List.dropWhile_append_of_pos hall, List.takeWhile_append_of_pos hall,
      htake, hdrop, List.append_nil]
    simp [hsep, hopen, hclose, hc.1, hhead]

/-- The text of a token, as it stands before what follows. -/
def Spelled (cs : List Char) : Token → List Char → Prop
  | .opening, text => text = ['(']
  | .closing, text => text = [')']
  | .word name, text =>
    text = name.toList ∧ text ≠ [] ∧ text.all isWordChar = true ∧ endsWord cs = true

theorem endsWord_dropWhile {cs : List Char} {ks : List Token}
    (h : lex (cs.dropWhile isWordChar) = some ks)
    (ho : (cs.dropWhile isWordChar).head? ≠ some '(') :
    endsWord (cs.dropWhile isWordChar) = true := by
  have hw := List.head?_dropWhile_not isWordChar cs
  cases hd : cs.dropWhile isWordChar with
  | nil => rfl
  | cons d ds =>
    rw [hd] at h ho hw
    have hne : d ≠ '(' := fun e => ho (congrArg some e)
    by_cases hs : isSeparator d = true
    · exact endsWord_cons.mpr (Or.inl hs)
    · by_cases hc : d = ')'
      · exact endsWord_cons.mpr (Or.inr hc)
      · rw [lex] at h
        simp_all

/-- The first token of a text stands after separators only. -/
theorem exists_of_lex {cs : List Char} {k : Token} {ks : List Token}
    (h : lex cs = some (k :: ks)) :
    ∃ gap text rest, cs = gap ++ (text ++ rest) ∧ gap.all isSeparator = true ∧
      Spelled rest k text ∧ lex rest = some ks := by
  induction cs with
  | nil => rw [lex] at h; cases h
  | cons c cs ih =>
    by_cases hs : isSeparator c = true
    · rw [lex_separator hs] at h
      obtain ⟨gap, text, rest, hcs, hgap, htext, hrest⟩ := ih h
      exact ⟨c :: gap, text, rest, by rw [hcs]; rfl, by simp [hs, hgap], htext, hrest⟩
    by_cases ho : c = '('
    · subst ho
      rw [lex_opening] at h
      obtain ⟨ts, hts, hk⟩ := Option.map_eq_some_iff.mp h
      cases hk
      exact ⟨[], ['('], cs, rfl, rfl, rfl, hts⟩
    by_cases hc : c = ')'
    · subst hc
      rw [lex_closing] at h
      obtain ⟨ts, hts, hk⟩ := Option.map_eq_some_iff.mp h
      cases hk
      exact ⟨[], [')'], cs, rfl, rfl, rfl, hts⟩
    rw [lex] at h
    simp only [hs, ho, hc, Bool.false_eq_true, beq_iff_eq, ↓reduceIte] at h
    split at h
    · rename_i hw
      split at h
      · cases h
      · rename_i hhead
        obtain ⟨ts, hts, hk⟩ := Option.map_eq_some_iff.mp h
        cases hk
        refine ⟨[], c :: cs.takeWhile isWordChar, cs.dropWhile isWordChar, ?_, rfl, ?_, hts⟩
        · rw [List.cons_append, List.takeWhile_append_dropWhile]
          rfl
        · refine ⟨String.toList_ofList.symm, List.cons_ne_nil _ _, ?_, ?_⟩
          · simp [hw]
          · exact endsWord_dropWhile hts hhead
    · cases h

theorem separators_of_lex {cs : List Char} (h : lex cs = some []) : cs.all isSeparator = true := by
  induction cs with
  | nil => rfl
  | cons c cs ih =>
    by_cases hs : isSeparator c = true
    · rw [lex_separator hs] at h
      rw [List.all_cons, hs, Bool.true_and]
      exact ih h
    · rw [lex] at h
      simp only [hs, Bool.false_eq_true, ↓reduceIte] at h
      split_ifs at h <;> obtain ⟨_, _, hk⟩ := Option.map_eq_some_iff.mp h <;> cases hk

end TruthTable.Proofs.Tokens
