import TruthTable.Proofs.Lines
import TruthTable.Proofs.Loading
import TruthTable.Proofs.ReadErrors

/-!
# Which line a knowledge base fails at

Sources are read one after the other and each from its first line on, so the first
line that should hold an expression and does not is the one that is reported, with
its place among all lines of its source. If there is no such line every expression
is loaded, and an error for want of any expression stands apart from both.
-/

namespace TruthTable.Proofs.LoadErrors

open Lines Loading ReadErrors

def Readable (line : List Char) : Prop :=
  isContent line = true → ∃ t, Tree.readAll line = .ok t

def AllReadable (s : Source) : Prop :=
  ∀ line ∈ lines s.text.toList, Readable line

/-- The lines of all sources that should hold an expression, in order. -/
def contents (sources : List Source) : List (List Char) :=
  sources.flatMap fun s => (lines s.text.toList).filter isContent

theorem mem_contents {sources : List Source} {line : List Char} :
    line ∈ contents sources ↔
      ∃ s ∈ sources, line ∈ lines s.text.toList ∧ isContent line = true := by
  simp only [contents, List.mem_flatMap, List.mem_filter]

theorem readable_or_error (line : List Char) :
    Readable line ∨ isContent line = true ∧ ∃ e, Tree.readAll line = .error e := by
  cases hr : Tree.readAll line with
  | ok t => exact Or.inl fun _ => ⟨t, hr⟩
  | error e =>
    cases hc : isContent line with
    | true => exact Or.inr ⟨rfl, e, rfl⟩
    | false =>
      refine Or.inl fun h => ?_
      rw [hc] at h
      cases h

theorem not_separators_of_isContent {line : List Char} (h : isContent line = true) :
    ¬ line.all isSeparator = true := by
  intro hall
  have hdrop : line.dropWhile isSeparator = [] :=
    List.dropWhile_eq_nil_iff.mpr (List.all_eq_true.mp hall)
  rw [isContent, hdrop] at h
  cases h

/-- The loader and the reader agree on what is blank. -/
theorem error_ne_empty {line : List Char} {e : ReadError} (hc : isContent line = true)
    (he : Tree.readAll line = .error e) : e ≠ .empty := by
  rcases readAll_eq_error he with ⟨-, hall⟩ | ⟨rfl, -⟩ | ⟨c, rest, rfl, -⟩ | ⟨t, rest, d, tail, rfl, -⟩
  · exact absurd hall (not_separators_of_isContent hc)
  · exact ReadError.noConfusion
  · exact ReadError.noConfusion
  · exact ReadError.noConfusion

theorem readLines_of_fault {line : List Char} {e : ReadError} (hc : isContent line = true)
    (he : Tree.readAll line = .error e) (name : String) (number : Nat) (below : List (List Char)) :
    Source.readLines name number (line :: below) = .error (.line name number e) := by
  rw [Source.readLines, if_pos hc, he]

/-- Below a readable line the same errors arise, one number later. -/
theorem readLines_of_readable {line : List Char} (h : Readable line) (name : String)
    (number : Nat) (below : List (List Char)) (err : LoadError) :
    Source.readLines name number (line :: below) = .error err ↔
      Source.readLines name (number + 1) below = .error err := by
  rw [Source.readLines]
  cases hc : isContent line with
  | false => exact Iff.rfl
  | true =>
    obtain ⟨t, ht⟩ := h hc
    rw [if_pos rfl, ht]
    cases Source.readLines name (number + 1) below <;> simp [Except.map]

theorem readLines_at_fault {above below : List (List Char)} {line : List Char} {e : ReadError}
    (ha : ∀ l ∈ above, Readable l) (hc : isContent line = true)
    (he : Tree.readAll line = .error e) (name : String) (number : Nat) :
    Source.readLines name number (above ++ line :: below) =
      .error (.line name (number + above.length) e) := by
  induction above generalizing number with
  | nil => exact readLines_of_fault hc he name number below
  | cons l above ih =>
    have hl := ha l (List.mem_cons_self ..)
    have hbelow := ih (fun k hk => ha k (List.mem_cons_of_mem _ hk)) (number + 1)
    rw [List.cons_append, readLines_of_readable hl, hbelow, List.length_cons]
    congr 2
    omega

theorem exists_fault_of_readLines {name : String} {number : Nat} {ls : List (List Char)}
    {err : LoadError} (h : Source.readLines name number ls = .error err) :
    ∃ above line below e, ls = above ++ line :: below ∧ (∀ l ∈ above, Readable l) ∧
      isContent line = true ∧ Tree.readAll line = .error e := by
  induction ls generalizing number with
  | nil => cases h
  | cons line ls ih =>
    rcases readable_or_error line with hl | ⟨hc, e, he⟩
    · obtain ⟨above, bad, below, e, rfl, ha, hc, he⟩ :=
        ih ((readLines_of_readable hl name number ls err).mp h)
      exact ⟨line :: above, bad, below, e, rfl, List.forall_mem_cons.mpr ⟨hl, ha⟩, hc, he⟩
    · exact ⟨[], line, ls, e, rfl, List.forall_mem_nil _, hc, he⟩

theorem holdTrees_contents {sources : List Source} {ts : List Tree}
    (h : Source.allExpressions sources = .ok ts) : HoldTrees (contents sources) ts := by
  have hlines : contents sources = sources.flatMap fun s => contentLines s.text := by
    simp only [contents, filter_isContent_lines]
    rfl
  rw [hlines]
  exact holdTrees_of_allExpressions h

theorem exists_tree_of_holdTrees {ls : List (List Char)} {ts : List Tree} (h : HoldTrees ls ts)
    {line : List Char} (hl : line ∈ ls) : ∃ t, Tree.readAll line = .ok t := by
  induction h with
  | nil => exact absurd hl List.not_mem_nil
  | cons hread _ ih =>
    rcases List.mem_cons.mp hl with rfl | hl
    · exact ⟨_, hread⟩
    · exact ih hl

theorem expressions_ok_iff (s : Source) :
    (∃ ts, s.expressions = .ok ts) ↔ AllReadable s := by
  constructor
  · rintro ⟨ts, hts⟩ line hline hc
    have hhold := (expressions_eq_ok_iff s ts).mp hts
    rw [contentLines, ← filter_isContent_lines] at hhold
    exact exists_tree_of_holdTrees hhold (List.mem_filter.mpr ⟨hline, hc⟩)
  · intro h
    cases hs : s.expressions with
    | ok ts => exact ⟨ts, rfl⟩
    | error err =>
      rw [expressions_eq] at hs
      obtain ⟨above, line, below, e, hlines, -, hc, he⟩ := exists_fault_of_readLines hs
      have hmem : line ∈ lines s.text.toList := by
        rw [hlines]
        exact List.mem_append_right above (List.mem_cons_self ..)
      obtain ⟨t, ht⟩ := h line hmem hc
      rw [he] at ht
      cases ht

theorem allExpressions_at_fault {before : List Source} (hb : ∀ r ∈ before, AllReadable r)
    {s : Source} {err : LoadError} (hs : s.expressions = .error err) (rest : List Source) :
    Source.allExpressions (before ++ s :: rest) = .error err := by
  induction before with
  | nil =>
    rw [List.nil_append, Source.allExpressions, hs]
    rfl
  | cons r before ih =>
    obtain ⟨ts, hts⟩ := (expressions_ok_iff r).mpr (hb r (List.mem_cons_self ..))
    have hrest := ih fun q hq => hb q (List.mem_cons_of_mem _ hq)
    rw [List.cons_append, Source.allExpressions, hts, hrest]
    rfl

theorem exists_fault_of_allExpressions {sources : List Source} {err : LoadError}
    (h : Source.allExpressions sources = .error err) :
    ∃ before s rest, sources = before ++ s :: rest ∧ (∀ r ∈ before, AllReadable r) ∧
      s.expressions = .error err := by
  induction sources with
  | nil => cases h
  | cons s rest ih =>
    cases hs : s.expressions with
    | error e =>
      rw [Source.allExpressions, hs] at h
      cases h
      exact ⟨[], s, rest, rfl, List.forall_mem_nil _, hs⟩
    | ok ts =>
      have hrest : Source.allExpressions rest = .error err := by
        rw [Source.allExpressions, hs] at h
        cases hr : Source.allExpressions rest with
        | ok us => rw [hr] at h; cases h
        | error e => rw [hr] at h; cases h; rfl
      obtain ⟨before, bad, after, rfl, hb, hbad⟩ := ih hrest
      have hread : AllReadable s := (expressions_ok_iff s).mp ⟨ts, hs⟩
      exact ⟨s :: before, bad, after, rfl, List.forall_mem_cons.mpr ⟨hread, hb⟩, hbad⟩

theorem allExpressions_ok_iff (sources : List Source) :
    (∃ ts, Source.allExpressions sources = .ok ts) ↔ ∀ s ∈ sources, AllReadable s := by
  constructor
  · rintro ⟨ts, hts⟩ s hs line hline hc
    have hmem : line ∈ contents sources := mem_contents.mpr ⟨s, hs, hline, hc⟩
    exact exists_tree_of_holdTrees (holdTrees_contents hts) hmem
  · intro h
    cases hall : Source.allExpressions sources with
    | ok ts => exact ⟨ts, rfl⟩
    | error err =>
      obtain ⟨before, s, rest, rfl, -, hs⟩ := exists_fault_of_allExpressions hall
      have hmem : s ∈ before ++ s :: rest := List.mem_append_right before (List.mem_cons_self ..)
      obtain ⟨ts, hts⟩ := (expressions_ok_iff s).mpr (h s hmem)
      rw [hs] at hts
      cases hts

/-- The first line of the sources that should hold an expression and does not: all
sources before its own are readable, and all lines above it in its own. -/
structure Fault (sources : List Source) where
  before : List Source
  source : Source
  after : List Source
  sources_eq : sources = before ++ source :: after
  before_readable : ∀ s ∈ before, AllReadable s
  above : List (List Char)
  line : List Char
  below : List (List Char)
  lines_eq : lines source.text.toList = above ++ line :: below
  above_readable : ∀ l ∈ above, Readable l
  isContent_line : isContent line = true
  error : ReadError
  readAll_line : Tree.readAll line = .error error

theorem exists_fault {sources : List Source} (h : ¬ ∀ s ∈ sources, AllReadable s) :
    Nonempty (Fault sources) := by
  cases hall : Source.allExpressions sources with
  | ok ts => exact absurd ((allExpressions_ok_iff sources).mp ⟨ts, hall⟩) h
  | error err =>
    obtain ⟨before, s, after, hsources, hb, hs⟩ := exists_fault_of_allExpressions hall
    rw [expressions_eq] at hs
    obtain ⟨above, line, below, e, hlines, ha, hc, he⟩ := exists_fault_of_readLines hs
    exact ⟨⟨before, s, after, hsources, hb, above, line, below, hlines, ha, hc, e, he⟩⟩

theorem knowledgeBase_of_fault {sources : List Source} (fault : Fault sources) :
    Source.knowledgeBase sources =
      .error (.line fault.source.name (fault.above.length + 1) fault.error) := by
  have hs : fault.source.expressions =
      .error (.line fault.source.name (fault.above.length + 1) fault.error) := by
    rw [expressions_eq, fault.lines_eq, Nat.add_comm]
    exact readLines_at_fault fault.above_readable fault.isContent_line fault.readAll_line _ 1
  have hall := allExpressions_at_fault fault.before_readable hs fault.after
  rw [← fault.sources_eq] at hall
  rw [Source.knowledgeBase, hall]

/-- Readable sources give one tree for each line that should hold an expression, and
the knowledge base is their conjunction unless there are none. -/
theorem knowledgeBase_of_readable {sources : List Source} (h : ∀ s ∈ sources, AllReadable s) :
    ∃ ts, HoldTrees (contents sources) ts ∧
      Source.knowledgeBase sources =
        if ts = [] then .error .emptyKnowledgeBase else .ok (.node "and" ts) := by
  obtain ⟨ts, hts⟩ := (allExpressions_ok_iff sources).mpr h
  refine ⟨ts, holdTrees_contents hts, ?_⟩
  rw [Source.knowledgeBase, hts]
  cases ts <;> rfl

theorem knowledgeBase_of_holdTrees {sources : List Source} {ts : List Tree}
    (h : HoldTrees (contents sources) ts) (hne : ts ≠ []) :
    Source.knowledgeBase sources = .ok (.node "and" ts) := by
  have hr : ∀ s ∈ sources, AllReadable s := by
    intro s hs line hline hc
    exact exists_tree_of_holdTrees h (mem_contents.mpr ⟨s, hs, hline, hc⟩)
  obtain ⟨us, hus, hkb⟩ := knowledgeBase_of_readable hr
  obtain rfl := forall₂_unique h hus
  rw [hkb, if_neg hne]

theorem knowledgeBase_eq_empty_iff (sources : List Source) :
    Source.knowledgeBase sources = .error .emptyKnowledgeBase ↔ contents sources = [] := by
  by_cases hr : ∀ s ∈ sources, AllReadable s
  · obtain ⟨ts, hts, hkb⟩ := knowledgeBase_of_readable hr
    rw [hkb]
    generalize contents sources = content at hts
    cases hts with
    | nil => exact iff_of_true rfl rfl
    | cons hread hrest => exact iff_of_false nofun nofun
  · obtain ⟨fault⟩ := exists_fault hr
    rw [knowledgeBase_of_fault fault]
    refine iff_of_false nofun fun hnil => hr fun s hs line hline hc => ?_
    have hmem : line ∈ contents sources := mem_contents.mpr ⟨s, hs, hline, hc⟩
    rw [hnil] at hmem
    exact absurd hmem List.not_mem_nil

/-- **The first fault is the one reported.** Sources whose lines hold what they should
give the conjunction of all their trees, one for each line that holds one, in order.
Otherwise there is a first line at fault, and it is reported with the name of its
source, its number among all lines there and the error of reading it, which is never
that it is empty. -/
theorem knowledgeBase_first_fault (sources : List Source) :
    ((∀ s ∈ sources, AllReadable s) →
      ∃ ts, HoldTrees (contents sources) ts ∧
        Source.knowledgeBase sources =
          if ts = [] then .error .emptyKnowledgeBase else .ok (.node "and" ts)) ∧
    (Source.knowledgeBase sources = .error .emptyKnowledgeBase ↔ contents sources = []) ∧
    (¬ (∀ s ∈ sources, AllReadable s) → Nonempty (Fault sources)) ∧
    ∀ fault : Fault sources,
      Source.knowledgeBase sources =
        .error (.line fault.source.name (fault.above.length + 1) fault.error) ∧
      fault.error ≠ .empty :=
  ⟨knowledgeBase_of_readable, knowledgeBase_eq_empty_iff sources, exists_fault, fun fault =>
    ⟨knowledgeBase_of_fault fault, error_ne_empty fault.isContent_line fault.readAll_line⟩⟩

example : Source.knowledgeBase [⟨"facts", "A\n\n# (\r\n(and B C\n)\n"⟩] =
    .error (.line "facts" 4 .unterminated) := by decide +kernel

end TruthTable.Proofs.LoadErrors
