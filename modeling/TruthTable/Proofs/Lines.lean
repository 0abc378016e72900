import TruthTable.Source

/-!
# Lines of a text

A text is cut at its line feeds. A carriage return right before a line feed belongs
to the line end; the last piece, which no line feed ends, keeps everything. The cut
is defined here on its own. The loader goes through a text character by character
and leaves out a last piece that is empty, which changes neither the lines that
should hold expressions nor their numbers.
-/

namespace TruthTable.Proofs.Lines

/-- A piece without the carriage return at its end, if there is one. -/
def dropReturn (piece : List Char) : List Char :=
  if piece.getLast? = some '\r' then piece.dropLast else piece

/-- The lines of a text. All pieces but the last are ended by a line feed. -/
def lines (text : List Char) : List (List Char) :=
  (text.splitOn '\n').dropLast.map dropReturn ++ (text.splitOn '\n').getLast?.toList

example : lines "A\r\n\r\r\n\nB\r".toList = [['A'], ['\r'], [], ['B', '\r']] := by decide

theorem dropReturn_return (piece : List Char) : dropReturn (piece ++ ['\r']) = piece := by
  simp [dropReturn]

theorem dropReturn_subset (piece : List Char) : dropReturn piece ⊆ piece := by
  unfold dropReturn
  split
  · exact List.dropLast_subset piece
  · exact List.Subset.refl piece

theorem dropReturn_of_ne {piece : List Char} (h : piece.getLast? ≠ some '\r') :
    dropReturn piece = piece :=
  if_neg h

/-- Where the first part does not end in a return, only the second can lose one. -/
theorem dropReturn_append {xs : List Char} (h : xs.getLast? ≠ some '\r') (ys : List Char) :
    dropReturn (xs ++ ys) = xs ++ dropReturn ys := by
  cases ys with
  | nil =>
    have hnil : dropReturn [] = [] := rfl
    rw [List.append_nil, dropReturn_of_ne h, hnil, List.append_nil]
  | cons y ys =>
    have hne : y :: ys ≠ [] := List.cons_ne_nil y ys
    have hlast : (xs ++ y :: ys).getLast? = (y :: ys).getLast? := by
      rw [List.getLast?_append, List.getLast?_eq_some_getLast hne, Option.some_or]
    unfold dropReturn
    rw [hlast, List.dropLast_append_of_ne_nil hne]
    split <;> rfl

/-- A line feed ends the line under way, which the loader holds latest character
first. -/
theorem splitLinesFrom_feed (line cs : List Char) :
    splitLinesFrom line ('\n' :: cs) = dropReturn line.reverse :: splitLinesFrom [] cs := by
  cases line with
  | nil => rfl
  | cons c line =>
    by_cases hc : c = '\r'
    · subst hc
      rw [List.reverse_cons, dropReturn_return]
      rfl
    · have hlast : (c :: line).reverse.getLast? ≠ some '\r' := by
        rw [List.getLast?_reverse]
        exact fun h => hc (Option.some.inj h)
      rw [dropReturn_of_ne hlast, splitLinesFrom]
      · rfl
      · rintro rest ⟨⟩
        exact hc rfl

theorem splitLinesFrom_of_ne {c : Char} (h : c ≠ '\n') (line cs : List Char) :
    splitLinesFrom line (c :: cs) = splitLinesFrom (c :: line) cs := by
  cases line <;> simp [splitLinesFrom, h]

theorem lines_of_not_mem {piece : List Char} (h : '\n' ∉ piece) : lines piece = [piece] := by
  have hsplit : piece.splitOn '\n' = [piece] := by
    apply List.splitOnP_eq_singleton
    intro c hc
    rw [beq_eq_false_iff_ne]
    rintro rfl
    exact h hc
  rw [lines, hsplit]
  rfl

theorem lines_feed {piece : List Char} (h : '\n' ∉ piece) (rest : List Char) :
    lines (piece ++ '\n' :: rest) = dropReturn piece :: lines rest := by
  have hsplit : (piece ++ '\n' :: rest).splitOn '\n' = piece :: rest.splitOn '\n' := by
    apply List.splitOnP_append_cons_of_forall_mem
    · intro c hc
      rw [beq_eq_false_iff_ne]
      rintro rfl
      exact h hc
    · rfl
  have hne : rest.splitOn '\n' ≠ [] := List.splitOnP_ne_nil _ rest
  have hlast : (piece :: rest.splitOn '\n').getLast? = (rest.splitOn '\n').getLast? := by
    rw [List.getLast?_cons, List.getLast?_eq_some_getLast hne]
    rfl
  rw [lines, hsplit, hlast, List.dropLast_cons_of_ne_nil hne, List.map_cons, List.cons_append]
  rfl

/-- The loader finds the lines, up to an empty last piece. -/
theorem lines_of_splitLinesFrom {line : List Char} (h : '\n' ∉ line) (cs : List Char) :
    lines (line.reverse ++ cs) = splitLinesFrom line cs ∨
      lines (line.reverse ++ cs) = splitLinesFrom line cs ++ [[]] := by
  induction cs generalizing line with
  | nil =>
    have hline : '\n' ∉ line.reverse := fun hc => h (List.mem_reverse.mp hc)
    rw [List.append_nil, lines_of_not_mem hline]
    cases line with
    | nil => exact Or.inr rfl
    | cons c line => exact Or.inl rfl
  | cons c cs ih =>
    by_cases hc : c = '\n'
    · subst hc
      have hline : '\n' ∉ line.reverse := fun hc => h (List.mem_reverse.mp hc)
      have hstart : '\n' ∉ ([] : List Char) := List.not_mem_nil
      rw [lines_feed hline, splitLinesFrom_feed, List.cons_append, List.cons_inj_right,
        List.cons_inj_right]
      exact ih hstart
    · have hline : '\n' ∉ c :: line := by
        intro hmem
        rcases List.mem_cons.mp hmem with heq | hmem
        · exact hc heq.symm
        · exact h hmem
      have hnext := ih hline
      rw [List.reverse_cons, List.append_assoc, List.singleton_append] at hnext
      rw [splitLinesFrom_of_ne hc]
      exact hnext

theorem lines_eq (text : List Char) :
    lines text = splitLines text ∨ lines text = splitLines text ++ [[]] :=
  lines_of_splitLinesFrom List.not_mem_nil text

theorem filter_isContent_lines (text : List Char) :
    (lines text).filter isContent = (splitLines text).filter isContent := by
  rcases lines_eq text with h | h
  · rw [h]
  · rw [h, List.filter_append]
    exact List.append_nil _

theorem readLines_append_empty (name : String) (number : Nat) (ls : List (List Char)) :
    Source.readLines name number (ls ++ [[]]) = Source.readLines name number ls := by
  induction ls generalizing number with
  | nil => rfl
  | cons line ls ih => rw [List.cons_append, Source.readLines, Source.readLines, ih]

/-- The expressions of a source are those of its lines, numbered from one. -/
theorem expressions_eq (s : Source) :
    s.expressions = Source.readLines s.name 1 (lines s.text.toList) := by
  rw [Source.expressions]
  rcases lines_eq s.text.toList with h | h
  · rw [h]
  · rw [h, readLines_append_empty]

end TruthTable.Proofs.Lines
