import TruthTable.Proofs.LoadErrors

/-!
# Formulas laid out as text

A page is a text with one formula on some of its lines, padded on both sides, and
blank lines and comments between them. Lines end in a line feed or in a carriage
return and a line feed, and the last one may have no end. However formulas are spread
over pages, the pages are loaded as the conjunction of the formulas in order: neither
the reader nor the loader sees the layout.
-/

namespace TruthTable.Proofs.Layout

open Tokens Printing Canonical Loading Lines LoadErrors

/-- What may stand on both sides of an expression within a line. -/
def isPadding (c : Char) : Bool :=
  c == ' ' || c == '\t' || c == '\r'

structure Padding where
  text : List Char
  all_isPadding : text.all isPadding = true

inductive Row where
  | formula (before : Padding) (f : Formula) (after : Padding)
  | blank (gap : Padding)
  | comment (before : Padding) (remark : List Char) (not_mem : '\n' ∉ remark)

namespace Row

def text : Row → List Char
  | formula before f after => before.text ++ (f.render.toList ++ after.text)
  | blank gap => gap.text
  | comment before remark _ => before.text ++ '#' :: remark

def formulas : Row → List Formula
  | formula _ f _ => [f]
  | blank _ => []
  | comment _ _ _ => []

end Row

inductive RowEnd where
  | feed
  | returnFeed

def RowEnd.text : RowEnd → List Char
  | feed => ['\n']
  | returnFeed => ['\r', '\n']

structure Page where
  name : String
  ended : List (Row × RowEnd)
  /-- A last row that nothing ends. -/
  last : Option Row

namespace Page

def text (p : Page) : List Char :=
  p.ended.flatMap (fun r => r.1.text ++ r.2.text) ++ p.last.toList.flatMap Row.text

def formulas (p : Page) : List Formula :=
  p.ended.flatMap (fun r => r.1.formulas) ++ p.last.toList.flatMap Row.formulas

def source (p : Page) : Source :=
  ⟨p.name, String.ofList p.text⟩

end Page

theorem Padding.separators (p : Padding) : p.text.all isSeparator = true := by
  rw [List.all_eq_true]
  intro c hc
  have hp := List.all_eq_true.mp p.all_isPadding c hc
  simp only [isPadding, Bool.or_eq_true, beq_iff_eq] at hp
  rcases hp with (rfl | rfl) | rfl <;> rfl

theorem Padding.feed_not_mem (p : Padding) : '\n' ∉ p.text := by
  intro hc
  have hp := List.all_eq_true.mp p.all_isPadding '\n' hc
  cases hp

/-- The padding without a return at its end. -/
def Padding.trimmed (p : Padding) : Padding where
  text := dropReturn p.text
  all_isPadding := by
    rw [List.all_eq_true]
    intro c hc
    exact List.all_eq_true.mp p.all_isPadding c (dropReturn_subset p.text hc)

/-- The characters of a printed tree. -/
def isPrinted (c : Char) : Bool :=
  isWordChar c || c == '(' || c == ')' || c == ' '

theorem all_isPrinted_of_isWord {name : String} (h : isWord name = true) :
    name.toList.all isPrinted = true := by
  rw [List.all_eq_true]
  intro c hc
  have hw := List.all_eq_true.mp ((isWord_iff name).mp h).2 c hc
  simp [isPrinted, hw]

theorem all_isPrinted_renderArgs {ts : List Tree}
    (h : ∀ t ∈ ts, t.render.toList.all isPrinted = true) :
    (Tree.renderArgs ts).toList.all isPrinted = true := by
  induction ts with
  | nil => rfl
  | cons t ts ih =>
    have ht := h t (List.mem_cons_self ..)
    have hts := ih fun u hu => h u (List.mem_cons_of_mem _ hu)
    have hspace : " ".toList.all isPrinted = true := by decide
    rw [Tree.renderArgs, String.toList_append, String.toList_append, List.all_append,
      List.all_append, hspace, ht, hts]
    rfl

theorem all_isPrinted_render {t : Tree} (h : Spellable t) :
    t.render.toList.all isPrinted = true := by
  induction t using Tree.induction with
  | leaf name => exact all_isPrinted_of_isWord (h name (List.mem_singleton_self name))
  | node head args ih =>
    obtain ⟨hh, hargs⟩ := spellable_node.mp h
    have hhead := all_isPrinted_of_isWord hh
    have hrest := all_isPrinted_renderArgs fun t ht => ih t ht (hargs t ht)
    have hopen : "(".toList.all isPrinted = true := by decide
    have hclose : ")".toList.all isPrinted = true := by decide
    rw [Tree.render, String.toList_append, String.toList_append, String.toList_append,
      List.all_append, List.all_append, List.all_append, hopen, hhead, hrest, hclose]
    rfl

theorem not_mem_render (f : Formula) {c : Char} (hc : isPrinted c = false) :
    c ∉ f.render.toList := by
  intro hmem
  rw [← render_toTree] at hmem
  have hp := List.all_eq_true.mp (all_isPrinted_render (spellable_toTree f)) c hmem
  rw [hc] at hp
  cases hp

theorem render_ne_nil (f : Formula) : f.render.toList ≠ [] := by
  have hne : f.toTree.render.toList ≠ [] := by
    have hs := spellable_toTree f
    cases ht : f.toTree with
    | leaf name =>
      rw [ht] at hs
      exact ((isWord_iff name).mp (hs name (List.mem_singleton_self name))).1
    | node head args => simp [Tree.render]
  rw [render_toTree] at hne
  exact hne

/-- A line that can be read is taken neither for blank nor for a comment. -/
theorem isContent_of_readAll {line : List Char} {t : Tree} (h : Tree.readAll line = .ok t) :
    isContent line = true := by
  have hlex := lex_of_readAll h
  have hgap : (line.takeWhile isSeparator).all isSeparator = true := List.all_takeWhile
  rw [← List.takeWhile_append_dropWhile (p := isSeparator) (l := line), lex_gap hgap] at hlex
  rw [isContent]
  cases hd : line.dropWhile isSeparator with
  | nil =>
    rw [hd, lex] at hlex
    cases t <;> cases hlex
  | cons c rest =>
    have hc : c ≠ '#' := by
      rintro rfl
      rw [hd, lex] at hlex
      cases hlex
    simpa using hc

theorem readAll_padded (f : Formula) {before after : List Char}
    (hb : before.all isSeparator = true) (ha : after.all isSeparator = true) :
    Tree.readAll (before ++ (f.render.toList ++ after)) = .ok f.toTree := by
  have hprints := prints (spellable_toTree f) after (endsWord_of_separators ha)
  rw [lex_separators ha, render_toTree] at hprints
  apply readAll_of_lex
  rw [lex_gap hb, hprints, Option.map_some, List.append_nil]

theorem isContent_blank (gap : Padding) : isContent gap.text = false := by
  have hdrop : gap.text.dropWhile isSeparator = [] :=
    List.dropWhile_eq_nil_iff.mpr (List.all_eq_true.mp gap.separators)
  rw [isContent, hdrop]

theorem isContent_comment (before : Padding) (remark : List Char) :
    isContent (before.text ++ '#' :: remark) = false := by
  have hdrop : (before.text ++ '#' :: remark).dropWhile isSeparator = '#' :: remark := by
    rw [List.dropWhile_append_of_pos (List.all_eq_true.mp before.separators)]
    rfl
  rw [isContent, hdrop]
  rfl

/-- The rows that should hold expressions hold the formulas. -/
theorem holdTrees_rows (rows : List Row) :
    HoldTrees ((rows.map Row.text).filter isContent)
      ((rows.flatMap Row.formulas).map Formula.toTree) := by
  induction rows with
  | nil => exact .nil
  | cons row rows ih =>
    rw [List.map_cons, List.flatMap_cons]
    cases row with
    | formula before f after =>
      have hread := readAll_padded f before.separators after.separators
      rw [Row.text, List.filter_cons_of_pos (isContent_of_readAll hread)]
      exact .cons hread ih
    | blank gap =>
      rw [Row.text, List.filter_cons_of_neg (by rw [isContent_blank]; exact Bool.false_ne_true)]
      exact ih
    | comment before remark hr =>
      rw [Row.text,
        List.filter_cons_of_neg (by rw [isContent_comment]; exact Bool.false_ne_true)]
      exact ih

theorem Row.feed_not_mem (r : Row) : '\n' ∉ r.text := by
  cases r with
  | formula before f after =>
    have hf : '\n' ∉ f.render.toList := not_mem_render f (by decide)
    simp [Row.text, before.feed_not_mem, after.feed_not_mem, hf]
  | blank gap => exact gap.feed_not_mem
  | comment before remark hr => simp [Row.text, before.feed_not_mem, hr]

/-- The row as it reads without a return at its end. -/
theorem Row.exists_dropReturn (r : Row) :
    ∃ seen : Row, dropReturn r.text = seen.text ∧ seen.formulas = r.formulas := by
  cases r with
  | formula before f after =>
    refine ⟨.formula before f after.trimmed, ?_, rfl⟩
    have hlast : (before.text ++ f.render.toList).getLast? ≠ some '\r' := by
      have hf : '\r' ∉ f.render.toList := not_mem_render f (by decide)
      rw [List.getLast?_append, List.getLast?_eq_some_getLast (render_ne_nil f), Option.some_or]
      intro he
      exact hf (Option.some.inj he ▸ List.getLast_mem (render_ne_nil f))
    rw [Row.text, ← List.append_assoc, dropReturn_append hlast, List.append_assoc]
    rfl
  | blank gap => exact ⟨.blank gap.trimmed, rfl, rfl⟩
  | comment before remark hr =>
    have hmem : '\n' ∉ dropReturn remark := fun hc => hr (dropReturn_subset remark hc)
    refine ⟨.comment before (dropReturn remark) hmem, ?_, rfl⟩
    have hlast : (before.text ++ ['#']).getLast? ≠ some '\r' := by simp
    rw [Row.text, Row.text, List.append_cons, dropReturn_append hlast, ← List.append_cons]

/-- What stands before the line feed is one line, with the formulas of the row. -/
theorem exists_lines_ended (r : Row) (e : RowEnd) (rest : List Char) :
    ∃ seen : Row, lines (r.text ++ e.text ++ rest) = seen.text :: lines rest ∧
      seen.formulas = r.formulas := by
  cases e with
  | feed =>
    obtain ⟨seen, htext, hformulas⟩ := r.exists_dropReturn
    refine ⟨seen, ?_, hformulas⟩
    rw [← htext, ← lines_feed r.feed_not_mem, RowEnd.text, List.append_assoc]
    rfl
  | returnFeed =>
    refine ⟨r, ?_, rfl⟩
    have hmem : '\n' ∉ r.text ++ ['\r'] := by simp [r.feed_not_mem]
    have hlines := lines_feed hmem rest
    rw [dropReturn_return] at hlines
    rw [← hlines, RowEnd.text]
    simp

theorem exists_rows (p : Page) :
    ∃ rows : List Row, lines p.text = rows.map Row.text ∧
      rows.flatMap Row.formulas = p.formulas := by
  obtain ⟨name, ended, last⟩ := p
  induction ended with
  | nil =>
    cases last with
    | none => exact ⟨[.blank ⟨[], rfl⟩], lines_of_not_mem List.not_mem_nil, rfl⟩
    | some r =>
      refine ⟨[r], ?_, rfl⟩
      have hlines := lines_of_not_mem r.feed_not_mem
      simpa [Page.text] using hlines
  | cons entry ended ih =>
    obtain ⟨r, e⟩ := entry
    obtain ⟨rows, hrows, hformulas⟩ := ih
    obtain ⟨seen, hseen, hsame⟩ := exists_lines_ended r e (Page.text ⟨name, ended, last⟩)
    refine ⟨seen :: rows, ?_, ?_⟩
    · rw [List.map_cons, ← hrows, ← hseen, Page.text, Page.text, List.flatMap_cons,
        List.append_assoc]
    · rw [List.flatMap_cons, hformulas, hsame, Page.formulas, Page.formulas, List.flatMap_cons,
        List.append_assoc]

theorem holdTrees_pages (pages : List Page) :
    HoldTrees (contents (pages.map Page.source))
      ((pages.flatMap Page.formulas).map Formula.toTree) := by
  induction pages with
  | nil => exact .nil
  | cons p pages ih =>
    obtain ⟨rows, hrows, hformulas⟩ := exists_rows p
    have hpage := holdTrees_rows rows
    rw [← hrows, hformulas] at hpage
    rw [List.flatMap_cons, List.map_append, List.map_cons, contents, List.flatMap_cons,
      Page.source, String.toList_ofList]
    exact List.rel_append hpage ih

/-- **Layout does not matter.** Pages that hold the given formulas in order are loaded
as the tree of their conjunction, which denotes that conjunction. The tree depends on
the formulas alone, so neither the cut into pages nor padding, comments or line ends
change what is loaded. -/
theorem knowledgeBase_pages (f : Formula) (fs : List Formula) (pages : List Page)
    (h : pages.flatMap Page.formulas = f :: fs) :
    Source.knowledgeBase (pages.map Page.source) = .ok (Formula.variadic .and f fs).toTree ∧
      (Formula.variadic .and f fs).toTree.validate = .ok (.variadic .and f fs) := by
  refine ⟨?_, validate_toTree (.variadic .and f fs)⟩
  have hold := holdTrees_pages pages
  rw [h] at hold
  have htree : (Formula.variadic .and f fs).toTree =
      .node "and" ((f :: fs).map Formula.toTree) := by
    rw [Formula.toTree, Formula.toTrees_eq_map]
    rfl
  rw [htree]
  exact knowledgeBase_of_holdTrees hold (List.cons_ne_nil _ _)

/-- `# weather`, an implication after a tab, and a blank line. -/
def rules : Page where
  name := "rules"
  ended :=
    [(.comment ⟨[], rfl⟩ " weather".toList (by decide), .returnFeed),
      (.formula ⟨['\t'], rfl⟩ (.binary .implies (.atom ⟨"Rain", rfl⟩) (.atom ⟨"Wet", rfl⟩))
        ⟨[' ', '\r'], rfl⟩, .feed),
      (.blank ⟨[], rfl⟩, .feed)]
  last := none

/-- Its premise, on a line without an end. -/
def facts : Page where
  name := "facts"
  ended := []
  last := some (.formula ⟨[' '], rfl⟩ (.atom ⟨"Rain", rfl⟩) ⟨['\r'], rfl⟩)

theorem knowledgeBase_rules_facts :
    [rules, facts].map Page.source =
      [⟨"rules", "# weather\r\n\t(if Rain Wet) \r\n\n"⟩, ⟨"facts", " Rain\r"⟩] ∧
    Source.knowledgeBase ([rules, facts].map Page.source) =
      .ok (.node "and" [.node "if" [.leaf "Rain", .leaf "Wet"], .leaf "Rain"]) := by
  refine ⟨by decide +kernel, ?_⟩
  exact (knowledgeBase_pages (.binary .implies (.atom ⟨"Rain", rfl⟩) (.atom ⟨"Wet", rfl⟩))
    [.atom ⟨"Rain", rfl⟩] [rules, facts] rfl).1

end TruthTable.Proofs.Layout
