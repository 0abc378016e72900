import TruthTable.Proofs.LoadErrors

/-!
# The statement of a source

A statement is the tree on the first line that should hold an expression. The lines below
that one add nothing to it, and yet they count: a source is read to its end before its
first tree is taken, so a line below that cannot be read is the error of the whole. The
lines below may be replaced by any that can be read, and by no others.
-/

namespace TruthTable.Proofs.Statements

open Lines Loading LoadErrors

/-- The first line of a source that should hold an expression. -/
structure Opening (s : Source) where
  above : List (List Char)
  line : List Char
  below : List (List Char)
  lines_eq : lines s.text.toList = above ++ line :: below
  above_blank : ∀ l ∈ above, isContent l = false
  isContent_line : isContent line = true

theorem exists_opening {s : Source} (h : ∃ line ∈ lines s.text.toList, isContent line = true) :
    Nonempty (Opening s) := by
  obtain ⟨line, hline⟩ := Option.isSome_iff_exists.mp (List.find?_isSome.mpr h)
  obtain ⟨hc, above, below, hlines, habove⟩ := List.find?_eq_some_iff_append.mp hline
  exact ⟨⟨above, line, below, hlines, fun l hl => by simpa using habove l hl, hc⟩⟩

theorem readable_of_blank {line : List Char} (h : isContent line = false) : Readable line := by
  intro hc
  rw [h] at hc
  cases hc

theorem statement_of_error {s : Source} {err : LoadError} (h : s.expressions = .error err) :
    s.statement = .error err := by
  rw [Source.statement, h]

theorem expressions_of_statement {s : Source} {t : Tree} (h : s.statement = .ok t) :
    ∃ ts, s.expressions = .ok (t :: ts) := by
  obtain ⟨ts, hts⟩ := holdTrees_of_statement h
  exact ⟨ts, (expressions_eq_ok_iff s _).mpr hts⟩

theorem statement_of_blank {s : Source}
    (h : ¬ ∃ line ∈ lines s.text.toList, isContent line = true) :
    s.statement = .error (.missingStatement s.name) := by
  have hnone : (lines s.text.toList).filter isContent = [] :=
    List.filter_eq_nil_iff.mpr fun line hline hc => h ⟨line, hline, hc⟩
  have hempty : s.expressions = .ok [] := by
    rw [expressions_eq, readLines_eq_ok_iff, hnone]
    exact List.Forall₂.nil
  rw [Source.statement, hempty]

/-- The first line that cannot be read is the error, wherever it stands. -/
theorem statement_at_fault {s : Source} {above below : List (List Char)} {line : List Char}
    {e : ReadError} (hlines : lines s.text.toList = above ++ line :: below)
    (habove : ∀ l ∈ above, Readable l) (hc : isContent line = true)
    (he : Tree.readAll line = .error e) :
    s.statement = .error (.line s.name (above.length + 1) e) := by
  apply statement_of_error
  rw [expressions_eq, hlines, Nat.add_comm]
  exact readLines_at_fault habove hc he s.name 1

namespace Opening

variable {s : Source} (o : Opening s)

theorem above_readable : ∀ l ∈ o.above, Readable l :=
  fun l hl => readable_of_blank (o.above_blank l hl)

theorem filter_lines :
    (lines s.text.toList).filter isContent = o.line :: o.below.filter isContent := by
  have habove : o.above.filter isContent = [] :=
    List.filter_eq_nil_iff.mpr fun l hl => by simp [o.above_blank l hl]
  rw [o.lines_eq, List.filter_append, habove, List.nil_append,
    List.filter_cons_of_pos o.isContent_line]

theorem allReadable_iff {t : Tree} (ht : Tree.readAll o.line = .ok t) :
    AllReadable s ↔ ∀ l ∈ o.below, Readable l := by
  constructor
  · intro h l hl
    apply h
    rw [o.lines_eq]
    simp [hl]
  · intro h l hl
    rw [o.lines_eq, List.mem_append, List.mem_cons] at hl
    rcases hl with hl | rfl | hl
    · exact o.above_readable l hl
    · exact fun _ => ⟨t, ht⟩
    · exact h l hl

theorem statement_eq_ok_iff {t : Tree} (ht : Tree.readAll o.line = .ok t) :
    s.statement = .ok t ↔ ∀ l ∈ o.below, Readable l := by
  rw [← o.allReadable_iff ht, ← expressions_ok_iff]
  constructor
  · intro h
    obtain ⟨ts, hts⟩ := expressions_of_statement h
    exact ⟨_, hts⟩
  · rintro ⟨ts, hts⟩
    have hhold : HoldTrees (o.line :: o.below.filter isContent) ts := by
      rw [← o.filter_lines, filter_isContent_lines]
      exact (expressions_eq_ok_iff s ts).mp hts
    obtain ⟨u, us, hu, -, rfl⟩ := List.forall₂_cons_left_iff.mp hhold
    rw [ht] at hu
    cases hu
    rw [Source.statement, hts]

end Opening

/-- **The statement is on the first line that should hold one, if all below can be read.**
Without such a line the statement is missing. If the line cannot be read it is the error,
with its number. If it is read as a tree, this tree is the statement exactly if every line
below that should hold an expression can be read too; otherwise the first of those that
cannot be read is the error, with its number. -/
theorem statement_by_opening (s : Source) :
    ((¬ ∃ line ∈ lines s.text.toList, isContent line = true) →
      s.statement = .error (.missingStatement s.name)) ∧
    ((∃ line ∈ lines s.text.toList, isContent line = true) → Nonempty (Opening s)) ∧
    ∀ o : Opening s,
      (∀ e, Tree.readAll o.line = .error e →
        s.statement = .error (.line s.name (o.above.length + 1) e)) ∧
      ∀ t, Tree.readAll o.line = .ok t →
        (s.statement = .ok t ↔ ∀ l ∈ o.below, Readable l) ∧
        ∀ between bad rest e, o.below = between ++ bad :: rest → (∀ l ∈ between, Readable l) →
          isContent bad = true → Tree.readAll bad = .error e →
            s.statement = .error (.line s.name (o.above.length + between.length + 2) e) := by
  refine ⟨statement_of_blank, exists_opening, fun o => ⟨?_, fun t ht => ⟨?_, ?_⟩⟩⟩
  · intro e he
    exact statement_at_fault o.lines_eq o.above_readable o.isContent_line he
  · exact o.statement_eq_ok_iff ht
  · intro between bad rest e hbelow hbetween hc he
    have hlines : lines s.text.toList = (o.above ++ o.line :: between) ++ bad :: rest := by
      rw [o.lines_eq, hbelow, List.append_assoc, List.cons_append]
    have habove : ∀ l ∈ o.above ++ o.line :: between, Readable l := by
      intro l hl
      rcases List.mem_append.mp hl with hl | hl
      · exact o.above_readable l hl
      · rcases List.mem_cons.mp hl with rfl | hl
        · exact fun _ => ⟨t, ht⟩
        · exact hbetween l hl
    have hfault := statement_at_fault hlines habove hc he
    rw [List.length_append, List.length_cons] at hfault
    exact hfault

/-- A statement, a line that cannot be read, and a line that can. -/
def hyphenBelow : Source :=
  ⟨"stmt", "A\n-\nB"⟩

/-- The first line holds a tree, and is a source of its own. With a line below that cannot
be read the tree is lost. -/
theorem statement_lost_to_line_below :
    lines hyphenBelow.text.toList = [['A'], ['-'], ['B']] ∧ isContent ['A'] = true ∧
      Tree.readAll ['A'] = .ok (.leaf "A") ∧
      Source.statement ⟨"stmt", "A"⟩ = .ok (.leaf "A") ∧
      hyphenBelow.statement ≠ .ok (.leaf "A") ∧
      hyphenBelow.statement = .error (.line "stmt" 2 (.unexpected '-' 0)) := by
  decide +kernel

end TruthTable.Proofs.Statements
