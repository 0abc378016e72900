import TruthTable.Proofs.Canonical
import TruthTable.Proofs.Forcing
import TruthTable.Source

/-!
# What sources hold

A source is loaded line by line: each line that should hold an expression gives one
tree, and the trees stand in the order of the lines. A loaded knowledge base is the
conjunction of them all, so once it is valid it holds under an assignment exactly if
the formula on each of those lines does.
-/

namespace TruthTable.Proofs.Loading

open Canonical Forcing

/-- The lines of a text that should hold an expression. -/
def contentLines (text : String) : List (List Char) :=
  (splitLines text.toList).filter isContent

/-- The lines hold the trees, one each. -/
def HoldTrees (lines : List (List Char)) (ts : List Tree) : Prop :=
  List.Forall₂ (fun line t => Tree.readAll line = .ok t) lines ts

/-- The lines hold the formulas, one each. -/
def HoldFormulas (lines : List (List Char)) (fs : List Formula) : Prop :=
  List.Forall₂ (fun line f => Formula.read (String.ofList line) = .ok f) lines fs

theorem forall₂_unique {ε α β : Type} {f : α → Except ε β} {as : List α} {bs cs : List β}
    (hb : List.Forall₂ (fun a b => f a = .ok b) as bs)
    (hc : List.Forall₂ (fun a b => f a = .ok b) as cs) : bs = cs :=
  List.right_unique_forall₂' (fun _ _ _ hb hc => Except.ok.inj (hb.symm.trans hc)) hb hc

theorem HoldFormulas.unique {lines : List (List Char)} {fs gs : List Formula}
    (hf : HoldFormulas lines fs) (hg : HoldFormulas lines gs) : fs = gs :=
  forall₂_unique hf hg

theorem readLines_eq_ok_iff (name : String) (number : Nat) (lines : List (List Char))
    (ts : List Tree) :
    Source.readLines name number lines = .ok ts ↔ HoldTrees (lines.filter isContent) ts := by
  induction lines generalizing number ts with
  | nil => cases ts <;> simp [Source.readLines, HoldTrees]
  | cons line lines ih =>
    rw [Source.readLines, List.filter_cons]
    cases isContent line with
    | false => exact ih (number + 1) ts
    | true =>
      rw [if_pos rfl, if_pos rfl, HoldTrees]
      cases ts with
      | nil =>
        cases Tree.readAll line <;> cases Source.readLines name (number + 1) lines <;>
          simp [Except.map]
      | cons u us =>
        rw [List.forall₂_cons, ← HoldTrees, ← ih (number + 1)]
        cases Tree.readAll line <;> cases Source.readLines name (number + 1) lines <;>
          simp [Except.map]

theorem expressions_eq_ok_iff (s : Source) (ts : List Tree) :
    s.expressions = .ok ts ↔ HoldTrees (contentLines s.text) ts :=
  readLines_eq_ok_iff s.name 1 (splitLines s.text.toList) ts

theorem bind_eq_ok {ε α β : Type} {x : Except ε α} {f : α → Except ε β} {b : β}
    (h : x >>= f = .ok b) : ∃ a, x = .ok a ∧ f a = .ok b := by
  cases x with
  | error e => cases h
  | ok a => exact ⟨a, rfl, h⟩

theorem holdTrees_of_allExpressions {sources : List Source} {ts : List Tree}
    (h : Source.allExpressions sources = .ok ts) :
    HoldTrees (sources.flatMap fun s => contentLines s.text) ts := by
  induction sources generalizing ts with
  | nil => cases h; exact .nil
  | cons s rest ih =>
    rw [Source.allExpressions] at h
    obtain ⟨here, hhere, h⟩ := bind_eq_ok h
    obtain ⟨others, hothers, h⟩ := bind_eq_ok h
    cases h
    rw [List.flatMap_cons]
    exact List.rel_append ((expressions_eq_ok_iff s here).mp hhere) (ih hothers)

/-- A loaded knowledge base is the conjunction of at least one tree. -/
theorem holdTrees_of_knowledgeBase {sources : List Source} {t : Tree}
    (h : Source.knowledgeBase sources = .ok t) :
    ∃ ts, t = .node "and" ts ∧ HoldTrees (sources.flatMap fun s => contentLines s.text) ts := by
  rw [Source.knowledgeBase] at h
  split at h
  · cases h
  · rename_i ts _ hts
    cases h
    exact ⟨ts, rfl, holdTrees_of_allExpressions hts⟩
  · cases h

theorem holdTrees_of_statement {s : Source} {t : Tree} (h : s.statement = .ok t) :
    ∃ ts, HoldTrees (contentLines s.text) (t :: ts) := by
  rw [Source.statement] at h
  split at h
  · cases h
  · rename_i u us hus
    cases h
    exact ⟨us, (expressions_eq_ok_iff s _).mp hus⟩
  · cases h

/-- The paths lead to the texts, one each. -/
def HaveTexts (textAt : TextAt) (paths texts : List String) : Prop :=
  List.Forall₂ (fun path text => textAt path = .ok text) paths texts

theorem HaveTexts.unique {textAt : TextAt} {paths texts texts' : List String}
    (h : HaveTexts textAt paths texts) (h' : HaveTexts textAt paths texts') : texts = texts' :=
  forall₂_unique h h'

theorem ofPath_eq_ok_iff {textAt : TextAt} {path : String} {s : Source} :
    Source.ofPath textAt path = .ok s ↔ s.name = path ∧ textAt path = .ok s.text := by
  obtain ⟨name, text⟩ := s
  rw [Source.ofPath]
  cases textAt path with
  | error fault => simp
  | ok found => simp [eq_comm]

/-- The paths lead to the texts of the sources, one each, and are their names. -/
def HaveSources (textAt : TextAt) (paths : List String) (sources : List Source) : Prop :=
  List.Forall₂ (fun path s => s.name = path ∧ textAt path = .ok s.text) paths sources

theorem mapM_ofPath_eq_ok_iff {textAt : TextAt} {paths : List String} {sources : List Source} :
    paths.mapM (Source.ofPath textAt) = .ok sources ↔ HaveSources textAt paths sources := by
  induction paths generalizing sources with
  | nil => cases sources <;> simp [HaveSources, pure, Except.pure]
  | cons path paths ih =>
    rw [List.mapM_cons]
    constructor
    · intro h
      obtain ⟨s, hs, h⟩ := bind_eq_ok h
      obtain ⟨rest, hrest, h⟩ := bind_eq_ok h
      cases h
      exact .cons (ofPath_eq_ok_iff.mp hs) (ih.mp hrest)
    · intro h
      obtain ⟨s, rest, hs, hrest, rfl⟩ := List.forall₂_cons_left_iff.mp h
      rw [ofPath_eq_ok_iff.mpr hs, ih.mpr hrest]
      rfl

theorem HaveSources.texts {textAt : TextAt} {paths : List String} {sources : List Source}
    (h : HaveSources textAt paths sources) :
    HaveTexts textAt paths (sources.map Source.text) :=
  List.forall₂_map_right_iff.mpr (h.imp fun _ _ hp => hp.2)

theorem holdTrees_of_knowledgeBaseAt {textAt : TextAt} {paths : List String} {t : Tree}
    (h : Source.knowledgeBaseAt textAt paths = .ok t) :
    ∃ texts ts, HaveTexts textAt paths texts ∧ t = .node "and" ts ∧
      HoldTrees (texts.flatMap contentLines) ts := by
  obtain ⟨sources, hsources, hkb⟩ := bind_eq_ok h
  obtain ⟨ts, ht, hts⟩ := holdTrees_of_knowledgeBase hkb
  refine ⟨sources.map Source.text, ts, (mapM_ofPath_eq_ok_iff.mp hsources).texts, ht, ?_⟩
  rw [List.flatMap_map]
  exact hts

theorem holdTrees_of_statementAt {textAt : TextAt} {path : String} {t : Tree}
    (h : Source.statementAt textAt path = .ok t) :
    ∃ text ts, textAt path = .ok text ∧ HoldTrees (contentLines text) (t :: ts) := by
  obtain ⟨s, hs, hst⟩ := bind_eq_ok h
  obtain ⟨ts, hts⟩ := holdTrees_of_statement hst
  exact ⟨s.text, ts, (ofPath_eq_ok_iff.mp hs).2, hts⟩

/-- Loading looks at a file system only through the paths it is given. -/
theorem knowledgeBaseAt_congr {textAt textAt' : TextAt} {paths : List String}
    (h : ∀ path ∈ paths, textAt' path = textAt path) :
    Source.knowledgeBaseAt textAt' paths = Source.knowledgeBaseAt textAt paths := by
  have hsources : paths.mapM (Source.ofPath textAt') = paths.mapM (Source.ofPath textAt) := by
    induction paths with
    | nil => rfl
    | cons path paths ih =>
      rw [List.mapM_cons, List.mapM_cons, ih fun p hp => h p (List.mem_cons_of_mem _ hp),
        Source.ofPath, Source.ofPath, h path (List.mem_cons_self ..)]
  rw [Source.knowledgeBaseAt, Source.knowledgeBaseAt, hsources]

theorem statementAt_congr {textAt textAt' : TextAt} {path : String}
    (h : textAt' path = textAt path) :
    Source.statementAt textAt' path = Source.statementAt textAt path := by
  rw [Source.statementAt, Source.statementAt, Source.ofPath, Source.ofPath, h]

theorem read_of_readAll {line : List Char} {t : Tree} {f : Formula}
    (ht : Tree.readAll line = .ok t) (hf : t.validate = .ok f) :
    Formula.read (String.ofList line) = .ok f := by
  rw [Formula.read, Tree.read, String.toList_ofList, ht]
  simp only [hf]

theorem holdFormulas_of_validate {lines : List (List Char)} {ts : List Tree} {fs : List Formula}
    (ht : HoldTrees lines ts) (hf : List.Forall₂ (fun t f => t.validate = .ok f) ts fs) :
    HoldFormulas lines fs := by
  induction ht generalizing fs with
  | nil => cases hf; exact .nil
  | cons hline _ ih =>
    cases hf with
    | cons hvalid hrest => exact .cons (read_of_readAll hline hvalid) (ih hrest)

/-- A formula with the connective of conjunction holds exactly if its operands do. -/
theorem holds_of_and {f : Formula} (h : f.connective? = some (.variadic .and))
    (v : Symbol → Bool) : f.holds v = true ↔ ∀ g ∈ f.operands, g.holds v = true := by
  cases f with
  | atom s => cases h
  | not f => cases h
  | binary op l r => cases h
  | variadic op f fs => cases h; exact holds_and f fs v

/-- A valid knowledge base says what the formulas on the lines say together. -/
theorem holdFormulas_of_kb {textAt : TextAt} {paths : List String} {t : Tree} {kb : Formula}
    (ht : Source.knowledgeBaseAt textAt paths = .ok t) (hkb : t.validate = .ok kb) :
    ∃ texts premises, HaveTexts textAt paths texts ∧
      HoldFormulas (texts.flatMap contentLines) premises ∧
      ∀ v, kb.holds v = true ↔ ∀ f ∈ premises, f.holds v = true := by
  obtain ⟨texts, ts, htexts, rfl, hts⟩ := holdTrees_of_knowledgeBaseAt ht
  obtain ⟨c, hc, hconn, hargs⟩ := (validate_node_iff "and" ts kb).mp hkb
  have hand : c = .variadic .and := by
    have hname := Connective.ofName?_keyword (.variadic .and)
    exact Option.some.inj (hc.symm.trans hname)
  rw [hand] at hconn
  exact ⟨texts, kb.operands, htexts, holdFormulas_of_validate hts hargs, holds_of_and hconn⟩

theorem read_of_statement {textAt : TextAt} {path : String} {t : Tree} {statement : Formula}
    (ht : Source.statementAt textAt path = .ok t) (hs : t.validate = .ok statement) :
    ∃ text line rest, textAt path = .ok text ∧ contentLines text = line :: rest ∧
      Formula.read (String.ofList line) = .ok statement := by
  obtain ⟨text, ts, htext, hts⟩ := holdTrees_of_statementAt ht
  obtain ⟨line, rest, hline, -, hlines⟩ := List.forall₂_cons_right_iff.mp hts
  exact ⟨text, line, rest, htext, hlines, read_of_readAll hline hs⟩

end TruthTable.Proofs.Loading
