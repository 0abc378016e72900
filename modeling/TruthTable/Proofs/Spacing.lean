import Mathlib.Logic.Relation
import TruthTable.Proofs.Lookahead

/-!
# Separators and what is read

Wherever two parts of a text stand apart already, more separators between them change
nothing: not the tree, and not the way in which reading fails. Two parts stand apart if no
word is under way at the end of the first, or if the second begins in a way that ends a
word. What may change is the position of an error, so an error is compared without it.

This holds on either side of the character where reading fails. Before it the machine is
in the same state with and without the separators; after it only one thing still counts,
which is whether the rest is all separators.
-/

namespace TruthTable.Proofs.Spacing

open Reader Tokens ReaderRun Lookahead

/-- An error without its position. -/
inductive Kind where
  | unexpected (character : Char)
  | unterminated
  | trailing
  | empty
deriving DecidableEq

def kind : ReadError → Kind
  | .unexpected c _ => .unexpected c
  | .unterminated => .unterminated
  | .trailing _ => .trailing
  | .empty => .empty

/-- What a run comes to. Of the text after a tree it counts whether anything stands there
but separators. -/
def reading : Reader.Outcome → Except Kind Tree
  | .tree t rest => if rest.all isSeparator then .ok t else .error .trailing
  | .unexpected c _ => .error (.unexpected c)
  | .unterminated => .error .unterminated

theorem mapError_readAll (cs : List Char) :
    (Tree.readAll cs).mapError kind =
      if cs.all isSeparator then .error .empty else reading (run .start cs) := by
  unfold Tree.readAll Tree.readLeading
  cases hs : cs.all isSeparator with
  | true => rfl
  | false =>
    cases hr : run .start cs with
    | tree t rest =>
      have hall : rest.all isSeparator = true ↔ rest.dropWhile isSeparator = [] := by
        rw [List.all_eq_true, List.dropWhile_eq_nil_iff]
      cases hd : rest.dropWhile isSeparator with
      | nil => simp [hd, reading, hall.mpr hd, Except.mapError]
      | cons d tail => simp [hd, reading, hall, Except.mapError, kind]
    | unexpected c rest => rfl
    | unterminated => rfl

/-- Two texts that begin alike come to the same if their ends do so from every state that
is reached, and are both nothing but separators or both not. -/
theorem reading_run_append {ys zs : List Char} (hall : ys.all isSeparator = zs.all isSeparator)
    (st : State) (xs : List Char)
    (h : ∀ st', advance st xs = some st' → reading (run st' ys) = reading (run st' zs)) :
    reading (run st (xs ++ ys)) = reading (run st (xs ++ zs)) := by
  induction xs generalizing st with
  | nil => exact h st rfl
  | cons c xs ih =>
    rw [List.cons_append, List.cons_append, run, run]
    cases hs : step st c with
    | next mid =>
      refine ih mid fun st' hst' => h st' ?_
      rw [advance, hs]
      exact hst'
    | last t => simp only [reading, List.all_append, hall]
    | before t => simp only [reading, List.all_cons, List.all_append, hall]
    | reject => rfl

/-- Whether the last character belongs to a word that may go on. -/
def inWord : State → Bool
  | .head _ _ => true
  | .atom _ _ => true
  | _ => false

theorem not_inWord_of_deliver {t : Tree} {outer : List Frame} {st : State}
    (h : deliver t outer = .next st) : inWord st = false := by
  cases outer with
  | nil => cases h
  | cons f outer => cases h; rfl

/-- A word is under way after a word character and after no other. -/
theorem inWord_of_step {st st' : State} {c : Char} (h : step st c = .next st') :
    inWord st' = isWordChar c := by
  cases hw : isWordChar c with
  | true =>
    obtain ⟨hsep, hopen, hclose⟩ := ne_of_wordChar hw
    cases st <;> simp only [step, hw, hsep, hopen, hclose, Bool.false_eq_true, ↓reduceIte] at h <;>
      cases h <;> rfl
  | false =>
    cases st with
    | start =>
      simp only [step, hw, Bool.false_eq_true, ↓reduceIte] at h
      split_ifs at h <;> cases h <;> rfl
    | openHead outer =>
      simp only [step, hw, Bool.false_eq_true, ↓reduceIte] at h
      split_ifs at h
      cases h
      rfl
    | head w outer =>
      simp only [step, hw, Bool.false_eq_true, ↓reduceIte] at h
      split_ifs at h
      · cases h
        rfl
      · exact not_inWord_of_deliver h
    | args f outer =>
      simp only [step, hw, Bool.false_eq_true, ↓reduceIte] at h
      split_ifs at h
      · cases h
        rfl
      · exact not_inWord_of_deliver h
      · cases h
        rfl
    | atom w outer =>
      cases outer with
      | nil =>
        simp only [step, hw, Bool.false_eq_true, ↓reduceIte] at h
        split_ifs at h
      | cons f outer =>
        simp only [step, hw, Bool.false_eq_true, ↓reduceIte] at h
        split_ifs at h
        · exact not_inWord_of_deliver h
        · cases h
          rfl

/-- Between words separators are skipped. -/
theorem run_gap_of_not_inWord {st : State} (h : inWord st = false) {gap : List Char}
    (hgap : gap.all isSeparator = true) (cs : List Char) :
    run st (gap ++ cs) = run st cs := by
  refine run_gap (fun {c} hc => ?_) hgap cs
  cases st with
  | head w outer => cases h
  | atom w outer => cases h
  | start => simp [step, hc]
  | openHead outer => simp [step, hc]
  | args f outer => simp [step, hc]

theorem endsWord_gap {gap cs : List Char} (hgap : gap.all isSeparator = true)
    (he : endsWord cs = true) : endsWord (gap ++ cs) = true := by
  cases gap with
  | nil => exact he
  | cons c gap =>
    rw [List.all_cons, Bool.and_eq_true] at hgap
    exact endsWord_cons.mpr (Or.inl hgap.1)

/-- Where a word ends anyway, separators may come in between. -/
theorem reading_run_gap_of_endsWord (st : State) {gap cs : List Char}
    (hgap : gap.all isSeparator = true) (he : endsWord cs = true) :
    reading (run st (gap ++ cs)) = reading (run st cs) := by
  cases hst : inWord st with
  | false => rw [run_gap_of_not_inWord hst hgap]
  | true =>
    have he' := endsWord_gap hgap he
    cases st with
    | head w outer =>
      rw [run_head_end w outer he', run_head_end w outer he, run_gap_of_not_inWord rfl hgap]
    | atom w outer =>
      rw [run_atom_end w outer he', run_atom_end w outer he]
      cases outer with
      | nil => simp only [resume, reading, List.all_append, hgap, Bool.true_and]
      | cons f outer => rw [resume, resume, run_gap_of_not_inWord rfl hgap]
    | start => cases hst
    | openHead outer => cases hst
    | args f outer => cases hst

/-- No word goes on from the first part into the second. -/
def Apart (xs ys : List Char) : Prop :=
  (∀ c, xs.getLast? = some c → isWordChar c = false) ∨ endsWord ys = true

theorem inWord_of_advance {xs : List Char} {st : State} (h : advance .start xs = some st)
    (hlast : ∀ c, xs.getLast? = some c → isWordChar c = false) : inWord st = false := by
  rcases List.eq_nil_or_concat xs with rfl | ⟨front, c, rfl⟩
  · cases h
    rfl
  · rw [List.concat_eq_append] at h hlast
    obtain ⟨mid, hmid⟩ := exists_last_step h
    rw [inWord_of_step hmid]
    exact hlast c (by simp)

/-- **Separators between parts that stand apart.** -/
theorem mapError_readAll_gap {xs ys : List Char} (h : Apart xs ys) (gap : List Char)
    (hgap : gap.all isSeparator = true) :
    (Tree.readAll (xs ++ (gap ++ ys))).mapError kind = (Tree.readAll (xs ++ ys)).mapError kind := by
  have hall : (gap ++ ys).all isSeparator = ys.all isSeparator := by
    rw [List.all_append, hgap, Bool.true_and]
  have hreading : reading (run .start (xs ++ (gap ++ ys))) = reading (run .start (xs ++ ys)) := by
    apply reading_run_append hall
    intro st hst
    rcases h with hlast | he
    · rw [run_gap_of_not_inWord (inWord_of_advance hst hlast) hgap]
    · exact reading_run_gap_of_endsWord st hgap he
  rw [mapError_readAll, mapError_readAll, hreading, List.all_append, hall, ← List.all_append]

/-- One change of the separators in a text: a separator becomes a run of one or more, or a
separator comes in at the start, at the end, right after a parenthesis or right before one
that closes. -/
inductive Edit : List Char → List Char → Prop where
  | replace (xs ys : List Char) (c : Char) (gap : List Char) (hc : isSeparator c = true)
      (hne : gap ≠ []) (hgap : gap.all isSeparator = true) :
      Edit (xs ++ c :: ys) (xs ++ (gap ++ ys))
  | atStart (cs : List Char) (c : Char) (hc : isSeparator c = true) : Edit cs (c :: cs)
  | atEnd (cs : List Char) (c : Char) (hc : isSeparator c = true) : Edit cs (cs ++ [c])
  | afterParenthesis (xs ys : List Char) (p c : Char) (hp : p = '(' ∨ p = ')')
      (hc : isSeparator c = true) : Edit (xs ++ p :: ys) (xs ++ p :: c :: ys)
  | beforeClosing (xs ys : List Char) (c : Char) (hc : isSeparator c = true) :
      Edit (xs ++ ')' :: ys) (xs ++ c :: ')' :: ys)

/-- The second text comes from the first by any number of edits. -/
def Respaced (text respaced : String) : Prop :=
  Relation.ReflTransGen Edit text.toList respaced.toList

theorem apart_nil (ys : List Char) : Apart [] ys :=
  Or.inl fun c hc => by cases hc

theorem apart_concat {c : Char} (hc : isWordChar c = false) (xs ys : List Char) :
    Apart (xs ++ [c]) ys := by
  refine Or.inl fun d hd => ?_
  rw [List.getLast?_concat] at hd
  rw [← Option.some.inj hd, hc]

/-- A separator may be replaced by others: these come in before it, and then it stands
apart from them and may go. -/
theorem mapError_readAll_replace {xs ys gap : List Char} {c : Char} (hc : isSeparator c = true)
    (hne : gap ≠ []) (hgap : gap.all isSeparator = true) :
    (Tree.readAll (xs ++ c :: ys)).mapError kind =
      (Tree.readAll (xs ++ (gap ++ ys))).mapError kind := by
  have hbefore : Apart xs (c :: ys) := Or.inr (endsWord_cons.mpr (Or.inl hc))
  have hafter : Apart (xs ++ gap) ys := by
    rcases List.eq_nil_or_concat gap with rfl | ⟨front, d, rfl⟩
    · exact absurd rfl hne
    · rw [List.concat_eq_append, List.all_append, Bool.and_eq_true, List.all_cons,
        Bool.and_eq_true] at hgap
      rw [List.concat_eq_append, ← List.append_assoc]
      exact apart_concat (not_wordChar_of_separator hgap.2.1) _ ys
  calc (Tree.readAll (xs ++ c :: ys)).mapError kind
    _ = (Tree.readAll (xs ++ (gap ++ c :: ys))).mapError kind :=
        (mapError_readAll_gap hbefore gap hgap).symm
    _ = (Tree.readAll (xs ++ gap ++ ([c] ++ ys))).mapError kind := by
        rw [List.append_assoc, List.singleton_append]
    _ = (Tree.readAll (xs ++ gap ++ ys)).mapError kind :=
        mapError_readAll_gap hafter [c] (by simp [hc])
    _ = (Tree.readAll (xs ++ (gap ++ ys))).mapError kind := by rw [List.append_assoc]

/-- One edit keeps what is read. -/
theorem mapError_readAll_of_edit {cs ds : List Char} (h : Edit cs ds) :
    (Tree.readAll cs).mapError kind = (Tree.readAll ds).mapError kind := by
  cases h with
  | replace xs ys c gap hc hne hgap => exact mapError_readAll_replace hc hne hgap
  | atStart cs c hc => exact (mapError_readAll_gap (apart_nil cs) [c] (by simp [hc])).symm
  | atEnd cs c hc =>
    have hend : Apart cs [] := Or.inr rfl
    have h := mapError_readAll_gap hend [c] (by simp [hc])
    rw [List.append_nil, List.append_nil] at h
    exact h.symm
  | afterParenthesis xs ys p c hp hc =>
    have hword : isWordChar p = false := by rcases hp with rfl | rfl <;> decide
    have h := mapError_readAll_gap (apart_concat hword xs ys) [c] (by simp [hc])
    rw [List.append_assoc, List.append_assoc] at h
    exact h.symm
  | beforeClosing xs ys c hc =>
    have hbefore : Apart xs (')' :: ys) := Or.inr rfl
    exact (mapError_readAll_gap hbefore [c] (by simp [hc])).symm

/-- **The amount of space does not count.** However often the separators of a text are
edited, reading gives the same tree as before or fails in the same way as before, at an
unexpected character with the same character. -/
theorem read_respaced (text respaced : String) (h : Respaced text respaced) :
    (Tree.read text).mapError kind = (Tree.read respaced).mapError kind := by
  unfold Respaced at h
  unfold Tree.read
  generalize text.toList = cs at h
  generalize respaced.toList = ds at h
  induction h with
  | refl => rfl
  | tail _ hedit ih => exact ih.trans (mapError_readAll_of_edit hedit)

/-- A hyphen is unexpected, with edits before it and after it. -/
theorem read_respaced_hyphen :
    Respaced "(or Wet Dry-)" "( or\t\r\nWet Dry- )" ∧
      Tree.read "(or Wet Dry-)" = .error (.unexpected '-' 11) ∧
      (Tree.read "( or\t\r\nWet Dry- )").mapError kind = .error (.unexpected '-') := by
  have hopen : Edit "(or Wet Dry-)".toList "( or Wet Dry-)".toList :=
    .afterParenthesis [] "or Wet Dry-)".toList '(' ' ' (Or.inl rfl) rfl
  have hgap : Edit "( or Wet Dry-)".toList "( or\t\r\nWet Dry-)".toList :=
    .replace "( or".toList "Wet Dry-)".toList ' ' ['\t', '\r', '\n'] rfl (List.cons_ne_nil _ _) rfl
  have hclose : Edit "( or\t\r\nWet Dry-)".toList "( or\t\r\nWet Dry- )".toList :=
    .beforeClosing "( or\t\r\nWet Dry-".toList [] ' ' rfl
  have hrespaced : Respaced "(or Wet Dry-)" "( or\t\r\nWet Dry- )" :=
    ((Relation.ReflTransGen.single hopen).tail hgap).tail hclose
  exact ⟨hrespaced, rfl, (read_respaced _ _ hrespaced).symm⟩

end TruthTable.Proofs.Spacing
