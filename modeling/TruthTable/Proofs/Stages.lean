import Mathlib.Order.WellFounded
import TruthTable.CommandLine.Run
import TruthTable.Proofs.Statements

/-!
# The stages of a command and what is said when one fails

Five stages come before the check. When one of them fails, and the text that its reader
is then given, follow here from what stands at the paths of the command: which file
cannot be read, which line holds no expression, which nodes are at fault. Every word of
the text is spelled out, save what is wrong with a settings file that does not have the
form of settings; this is left open. After the settings no stage has two texts.
-/

namespace TruthTable.Proofs.Stages

open Lines Loading LoadErrors Statements Validation

def faultWords : FileFault → String
  | .notFound => "No such file or directory (os error 2)"
  | .notDirectory => "Not a directory (os error 20)"
  | .isDirectory => "Is a directory (os error 21)"
  | .notText => "stream did not contain valid UTF-8"
  | .other code description => description ++ " (os error " ++ toString code ++ ")"

def readWords : ReadError → String
  | .unexpected character position =>
    "unexpected character '" ++ character.toString ++ "' at position " ++ toString position
  | .unterminated => "unexpected end of input: unterminated expression"
  | .trailing position => "unexpected trailing input at position " ++ toString position
  | .empty => "no expression in input"

def arityWords : Arity → String
  | .exactly count => "exactly " ++ toString count
  | .atLeast count => "at least " ++ toString count

def nodeWords : NodeError → String
  | .arityMismatch connective expected actual =>
    "connective \"" ++ connective ++ "\" with " ++ toString actual ++ " arguments (expects " ++
      arityWords expected ++ ")"
  | .unknownConnective name => "unknown connective \"" ++ name ++ "\""
  | .invalidSymbol name => "invalid symbol \"" ++ name ++ "\""

def roleWords : Role → String
  | .knowledgeBase => "knowledge base"
  | .statement => "statement"

/-- A cause after its margin. Its further lines start below its first character. -/
def hung (margin text : String) : String :=
  margin ++ String.ofList (List.intercalate ('\n' :: List.replicate margin.length ' ')
    (text.toList.splitOn '\n')) ++ "\n"

def alone (cause : String) : String :=
  hung "    " cause

/-- A cause and the cause behind it. -/
def nested (outer inner : String) : String :=
  hung "    0: " outer ++ hung "    1: " inner

def errorText (heading causes : String) : String :=
  "Error: " ++ heading ++ "\n\nCaused by:\n" ++ causes

inductive Stage where
  | settings
  | reading (role : Role)
  | validating (role : Role)
deriving DecidableEq

/-- The stages run in this order. -/
def Stage.place : Stage → Nat
  | settings => 0
  | reading .knowledgeBase => 1
  | validating .knowledgeBase => 2
  | reading .statement => 3
  | validating .statement => 4

def pathsOf (i : Invocation) : Role → List String
  | .knowledgeBase => i.knowledgeBase
  | .statement => [i.statement]

/-- Said where no line should hold an expression. -/
def blankWords (i : Invocation) : Role → String
  | .knowledgeBase => "knowledge base is empty"
  | .statement => "no statement found in " ++ i.statement

/-- The trees that are validated: all of a knowledge base, the first of a statement. -/
def validated : Role → List Tree → List Tree
  | .knowledgeBase, ts => ts
  | .statement, ts => ts.take 1

/-- A stage fails with a text. What cannot be read is not validated, so the stage of
validating it does not fail. -/
inductive Complains (textAt : TextAt) (i : Invocation) : Stage → String → Prop
  | settingsUnread {path : String} {fault : FileFault} (named : i.config = some path)
      (unread : textAt path = .error fault) :
      Complains textAt i .settings (errorText ("loading config " ++ path)
        (nested ("IO error: " ++ faultWords fault) (faultWords fault)))
  | settingsMalformed {path text : String} (words : String) (named : i.config = some path)
      (read : textAt path = .ok text) (malformed : Settings.ofJsonText? text = none) :
      Complains textAt i .settings (errorText ("loading config " ++ path)
        (nested ("invalid configuration: " ++ words) words))
  | fileUnread {role : Role} {before after : List String} {path : String} {fault : FileFault}
      (paths_eq : pathsOf i role = before ++ path :: after)
      (before_read : ∀ p ∈ before, ∃ text, textAt p = .ok text)
      (unread : textAt path = .error fault) :
      Complains textAt i (.reading role) (errorText ("reading " ++ roleWords role)
        (nested ("failed to read " ++ path ++ ": " ++ faultWords fault) (faultWords fault)))
  | lineUnread {role : Role} {sources : List Source}
      (read : HaveSources textAt (pathsOf i role) sources) (fault : Fault sources) :
      Complains textAt i (.reading role) (errorText ("reading " ++ roleWords role)
        (nested (fault.source.name ++ ":" ++ toString (fault.above.length + 1) ++ ": " ++
          readWords fault.error) (readWords fault.error)))
  | blank {role : Role} {sources : List Source}
      (read : HaveSources textAt (pathsOf i role) sources) (nothing : contents sources = []) :
      Complains textAt i (.reading role) (errorText ("reading " ++ roleWords role)
        (alone (blankWords i role)))
  | invalid {role : Role} {sources : List Source} {ts : List Tree}
      (read : HaveSources textAt (pathsOf i role) sources)
      (held : HoldTrees (contents sources) ts)
      (at_fault : (validated role ts).flatMap errors ≠ []) :
      Complains textAt i (.validating role) (errorText ("invalid " ++ roleWords role)
        (alone ("; ".intercalate (((validated role ts).flatMap errors).map nodeWords))))

def Fails (textAt : TextAt) (i : Invocation) (stage : Stage) : Prop :=
  ∃ text, Complains textAt i stage text

structure FirstToFail (textAt : TextAt) (i : Invocation) (stage : Stage) : Prop where
  fails : Fails textAt i stage
  before : ∀ earlier : Stage, earlier.place < stage.place → ¬ Fails textAt i earlier

theorem faultWords_eq (fault : FileFault) : faultWords fault = fault.message := by
  cases fault <;> rfl

theorem readWords_eq (e : ReadError) : readWords e = e.message := by
  cases e <;> rfl

theorem nodeWords_eq (e : NodeError) : nodeWords e = e.message := by
  cases e with
  | arityMismatch connective expected actual => cases expected <;> rfl
  | unknownConnective name => rfl
  | invalidSymbol name => rfl

theorem messages_eq (es : List NodeError) :
    "; ".intercalate (es.map nodeWords) = NodeError.messages es := by
  rw [NodeError.messages, funext nodeWords_eq]

theorem roleWords_eq (role : Role) : roleWords role = role.name := by
  cases role <;> rfl

theorem intercalate_splitOn_eq (margin text : List Char) :
    List.intercalate ('\n' :: margin) (text.splitOn '\n') =
      text.flatMap fun c => if c == '\n' then c :: margin else [c] := by
  simp only [List.splitOn_eq_splitOnP]
  induction text with
  | nil => rfl
  | cons c text ih =>
    have hne := List.splitOnP_ne_nil (· == '\n') text
    rw [List.splitOnP_cons_eq_if_modifyHead, List.flatMap_cons, ← ih]
    by_cases hc : c == '\n'
    · rw [if_pos hc, if_pos hc, List.intercalate_cons_of_ne_nil hne, beq_iff_eq.mp hc]
      rfl
    · rw [if_neg hc, if_neg hc]
      cases hpieces : text.splitOnP (· == '\n') with
      | nil => exact absurd hpieces hne
      | cons piece pieces => cases pieces <;> rfl

theorem hung_eq (margin text : String) : hung margin text = Failure.causeText margin text := by
  rw [hung, intercalate_splitOn_eq]
  rfl

theorem report_of_alone {f : Failure} {cause : String} (h : f.causes = [cause]) :
    f.report = errorText f.context (alone cause) := by
  rw [Failure.report, h, alone, hung_eq]
  rfl

theorem causesText_pair (outer inner : String) :
    Failure.causesText [outer, inner] = nested outer inner := by
  have h0 : "    " ++ toString 0 ++ ": " = "    0: " := by decide
  have h1 : "    " ++ toString 1 ++ ": " = "    1: " := by decide
  have hlist : Failure.causesText [outer, inner] =
      "".intercalate [Failure.causeText ("    " ++ toString 0 ++ ": ") outer,
        Failure.causeText ("    " ++ toString 1 ++ ": ") inner] := rfl
  rw [hlist, h0, h1, nested, hung_eq, hung_eq, String.intercalate_cons_cons,
    String.intercalate_singleton, String.append_empty]

theorem report_of_nested {f : Failure} {outer inner : String} (h : f.causes = [outer, inner]) :
    f.report = errorText f.context (nested outer inner) := by
  rw [Failure.report, h, causesText_pair, errorText]

theorem ofPath_of_unread {textAt : TextAt} {path : String} {fault : FileFault}
    (h : textAt path = .error fault) :
    Source.ofPath textAt path = .error (.file path fault) := by
  rw [Source.ofPath, h]

theorem mapM_of_unread {textAt : TextAt} {before after : List String} {path : String}
    {fault : FileFault} (hbefore : ∀ p ∈ before, ∃ text, textAt p = .ok text)
    (h : textAt path = .error fault) :
    (before ++ path :: after).mapM (Source.ofPath textAt) = .error (.file path fault) := by
  induction before with
  | nil =>
    rw [List.nil_append, List.mapM_cons, ofPath_of_unread h]
    rfl
  | cons p before ih =>
    obtain ⟨text, htext⟩ := hbefore p (List.mem_cons_self ..)
    have hrest := ih fun q hq => hbefore q (List.mem_cons_of_mem _ hq)
    rw [List.cons_append, List.mapM_cons, hrest, Source.ofPath, htext]
    rfl

/-- Either all paths lead to texts or there is a first one that does not. -/
theorem sources_or_unread (textAt : TextAt) (paths : List String) :
    (∃ sources, HaveSources textAt paths sources) ∨
      ∃ before path after fault, paths = before ++ path :: after ∧
        (∀ p ∈ before, ∃ text, textAt p = .ok text) ∧ textAt path = .error fault := by
  induction paths with
  | nil => exact Or.inl ⟨[], .nil⟩
  | cons path paths ih =>
    cases hpath : textAt path with
    | error fault => exact Or.inr ⟨[], path, paths, fault, rfl, by simp, hpath⟩
    | ok text =>
      rcases ih with ⟨sources, hs⟩ | ⟨before, p, after, fault, hp, hbefore, hfault⟩
      · exact Or.inl ⟨⟨path, text⟩ :: sources, .cons ⟨rfl, hpath⟩ hs⟩
      · refine Or.inr ⟨path :: before, p, after, fault, by rw [hp, List.cons_append], ?_, hfault⟩
        exact List.forall_mem_cons.mpr ⟨⟨text, hpath⟩, hbefore⟩

/-- Either some first line is at fault or all lines hold what they should. -/
theorem fault_or_held (sources : List Source) :
    Nonempty (Fault sources) ∨ ∃ ts, HoldTrees (contents sources) ts := by
  by_cases h : ∀ s ∈ sources, AllReadable s
  · obtain ⟨ts, hts, -⟩ := knowledgeBase_of_readable h
    exact Or.inr ⟨ts, hts⟩
  · exact Or.inl (exists_fault h)

def loaded (textAt : TextAt) (i : Invocation) : Role → Except LoadError Tree
  | .knowledgeBase => Source.knowledgeBaseAt textAt i.knowledgeBase
  | .statement => Source.statementAt textAt i.statement

def blankError (i : Invocation) : Role → LoadError
  | .knowledgeBase => .emptyKnowledgeBase
  | .statement => .missingStatement i.statement

variable {textAt : TextAt} {i : Invocation} {role : Role} {sources : List Source}

theorem loaded_knowledgeBase (h : HaveSources textAt (pathsOf i .knowledgeBase) sources) :
    loaded textAt i .knowledgeBase = Source.knowledgeBase sources := by
  have hmap : i.knowledgeBase.mapM (Source.ofPath textAt) = .ok sources :=
    mapM_ofPath_eq_ok_iff.mpr h
  rw [loaded, Source.knowledgeBaseAt, hmap]
  rfl

theorem loaded_statement (h : HaveSources textAt (pathsOf i .statement) sources) :
    ∃ s, sources = [s] ∧ s.name = i.statement ∧ loaded textAt i .statement = s.statement := by
  obtain ⟨s, rest, hs, hrest, rfl⟩ := List.forall₂_cons_left_iff.mp h
  cases hrest
  refine ⟨s, rfl, hs.1, ?_⟩
  rw [loaded, Source.statementAt, ofPath_eq_ok_iff.mpr hs]
  rfl

theorem loaded_of_unread {before after : List String} {path : String} {fault : FileFault}
    (hpaths : pathsOf i role = before ++ path :: after)
    (hbefore : ∀ p ∈ before, ∃ text, textAt p = .ok text) (h : textAt path = .error fault) :
    loaded textAt i role = .error (.file path fault) := by
  have hmap : (before ++ path :: after).mapM (Source.ofPath textAt) = .error (.file path fault) :=
    mapM_of_unread hbefore h
  rw [← hpaths] at hmap
  cases role with
  | knowledgeBase =>
    rw [loaded, Source.knowledgeBaseAt, show i.knowledgeBase.mapM _ = _ from hmap]
    rfl
  | statement =>
    rw [pathsOf, List.mapM_cons] at hmap
    rw [loaded, Source.statementAt]
    cases hs : Source.ofPath textAt i.statement with
    | ok s => rw [hs] at hmap; cases hmap
    | error e => rw [hs] at hmap; cases hmap; rfl

theorem loaded_of_fault (h : HaveSources textAt (pathsOf i role) sources)
    (fault : Fault sources) :
    loaded textAt i role =
      .error (.line fault.source.name (fault.above.length + 1) fault.error) := by
  cases role with
  | knowledgeBase => rw [loaded_knowledgeBase h, knowledgeBase_of_fault fault]
  | statement =>
    obtain ⟨s, rfl, -, hload⟩ := loaded_statement h
    have hmem : fault.source ∈ fault.before ++ fault.source :: fault.after :=
      List.mem_append_right _ (List.mem_cons_self ..)
    have hsource : fault.source = s := by
      rw [← fault.sources_eq] at hmem
      exact List.mem_singleton.mp hmem
    rw [hload, ← statement_at_fault fault.lines_eq fault.above_readable fault.isContent_line
      fault.readAll_line, hsource]

theorem loaded_of_blank (h : HaveSources textAt (pathsOf i role) sources)
    (hnothing : contents sources = []) :
    loaded textAt i role = .error (blankError i role) := by
  cases role with
  | knowledgeBase =>
    rw [loaded_knowledgeBase h]
    exact (knowledgeBase_eq_empty_iff sources).mpr hnothing
  | statement =>
    obtain ⟨s, rfl, hname, hload⟩ := loaded_statement h
    have hblank : ¬ ∃ line ∈ lines s.text.toList, isContent line = true := by
      intro ⟨line, hline, hc⟩
      have hmem : line ∈ contents [s] := mem_contents.mpr ⟨s, by simp, hline, hc⟩
      rw [hnothing] at hmem
      exact List.not_mem_nil hmem
    rw [hload, statement_of_blank hblank, hname]
    rfl

theorem errors_and {ts : List Tree} (h : ts ≠ []) :
    errors (.node "and" ts) = ts.flatMap errors := by
  cases ts with
  | nil => exact absurd rfl h
  | cons t ts =>
    have hown : ownError (.node "and" (t :: ts)) = none := by
      have hfind : (Connective.all.find? fun c => sameLetters c.keyword "and") =
          some (.variadic .and) := by decide +kernel
      rw [ownError, hfind]
      rfl
    rw [errors_node, hown]
    rfl

theorem loaded_of_held {ts : List Tree} (h : HaveSources textAt (pathsOf i role) sources)
    (held : HoldTrees (contents sources) ts) (hne : ts ≠ []) :
    ∃ t, loaded textAt i role = .ok t ∧ errors t = (validated role ts).flatMap errors := by
  cases role with
  | knowledgeBase =>
    refine ⟨.node "and" ts, ?_, errors_and hne⟩
    rw [loaded_knowledgeBase h, knowledgeBase_of_holdTrees held hne]
  | statement =>
    obtain ⟨s, rfl, -, hload⟩ := loaded_statement h
    have hlines : contents [s] = contentLines s.text := by
      rw [contentLines, ← filter_isContent_lines, contents, List.flatMap_singleton]
    rw [hlines] at held
    have hexpressions := (expressions_eq_ok_iff s ts).mpr held
    cases ts with
    | nil => exact absurd rfl hne
    | cons t ts =>
      refine ⟨t, ?_, (List.append_nil _).symm⟩
      rw [hload, Source.statement, hexpressions]

theorem report_settings_file (path : String) (fault : FileFault) :
    (Failure.settings path (.file fault)).report = errorText ("loading config " ++ path)
      (nested ("IO error: " ++ faultWords fault) (faultWords fault)) := by
  rw [faultWords_eq]
  exact report_of_nested rfl

theorem report_settings_malformed (path : String) :
    (Failure.settings path .malformed).report = errorText ("loading config " ++ path)
      (nested ("invalid configuration: " ++ SettingsError.malformed.inner)
        SettingsError.malformed.inner) :=
  report_of_nested rfl

theorem report_file (role : Role) (path : String) (fault : FileFault) :
    (Failure.unreadable role (.file path fault)).report = errorText ("reading " ++ roleWords role)
      (nested ("failed to read " ++ path ++ ": " ++ faultWords fault) (faultWords fault)) := by
  rw [faultWords_eq, roleWords_eq]
  exact report_of_nested rfl

theorem report_line (role : Role) (source : String) (number : Nat) (e : ReadError) :
    (Failure.unreadable role (.line source number e)).report =
      errorText ("reading " ++ roleWords role)
        (nested (source ++ ":" ++ toString number ++ ": " ++ readWords e) (readWords e)) := by
  rw [readWords_eq, roleWords_eq]
  exact report_of_nested rfl

theorem report_blank (i : Invocation) (role : Role) :
    (Failure.unreadable role (blankError i role)).report =
      errorText ("reading " ++ roleWords role) (alone (blankWords i role)) := by
  rw [roleWords_eq]
  cases role <;> exact report_of_alone rfl

theorem report_invalid (role : Role) (es : List NodeError) :
    (Failure.invalid role es).report = errorText ("invalid " ++ roleWords role)
      (alone ("; ".intercalate (es.map nodeWords))) := by
  rw [messages_eq, roleWords_eq]
  exact report_of_alone rfl

theorem loaded_of_reading {text : String} (h : Complains textAt i (.reading role) text) :
    ∃ e, loaded textAt i role = .error e ∧ text = (Failure.unreadable role e).report := by
  cases h with
  | fileUnread hpaths hbefore hunread =>
    exact ⟨_, loaded_of_unread hpaths hbefore hunread, (report_file role _ _).symm⟩
  | lineUnread hread fault =>
    exact ⟨_, loaded_of_fault hread fault, (report_line role _ _ _).symm⟩
  | blank hread hnothing =>
    exact ⟨_, loaded_of_blank hread hnothing, (report_blank i role).symm⟩

theorem loaded_of_validating {text : String} (h : Complains textAt i (.validating role) text) :
    ∃ t es, loaded textAt i role = .ok t ∧ t.validate = .error es ∧
      text = (Failure.invalid role es).report := by
  cases h with
  | @invalid _ sources ts hread held hfault =>
    have hne : ts ≠ [] := by
      intro hnil
      cases role <;> simp [hnil, validated] at hfault
    obtain ⟨t, hload, herrors⟩ := loaded_of_held hread held hne
    rw [← herrors] at hfault ⊢
    have hreports := reports_validate t
    cases hv : t.validate with
    | ok f =>
      rw [hv] at hreports
      exact absurd hreports hfault
    | error es => exact ⟨t, es, hload, hv, by rw [report_invalid, errors_of_validate hv]⟩

/-- What is to be read is not a tree, and the stage of reading it fails, or it is a tree whose
errors are those of the trees on its lines. -/
theorem reading_cases (textAt : TextAt) (i : Invocation) (role : Role) :
    (∃ e, loaded textAt i role = .error e ∧
      Complains textAt i (.reading role) (Failure.unreadable role e).report) ∨
    ∃ sources ts t, HaveSources textAt (pathsOf i role) sources ∧
      HoldTrees (contents sources) ts ∧ loaded textAt i role = .ok t ∧
      errors t = (validated role ts).flatMap errors := by
  rcases sources_or_unread textAt (pathsOf i role) with
    ⟨sources, hsources⟩ | ⟨before, path, after, fault, hpaths, hbefore, hunread⟩
  · rcases fault_or_held sources with ⟨⟨fault⟩⟩ | ⟨ts, held⟩
    · refine Or.inl ⟨_, loaded_of_fault hsources fault, ?_⟩
      rw [report_line]
      exact .lineUnread hsources fault
    · by_cases hne : ts = []
      · have hnothing : contents sources = [] := by
          rw [hne] at held
          exact List.forall₂_nil_right_iff.mp held
        refine Or.inl ⟨_, loaded_of_blank hsources hnothing, ?_⟩
        rw [report_blank]
        exact .blank hsources hnothing
      · obtain ⟨t, hload, herrors⟩ := loaded_of_held hsources held hne
        exact Or.inr ⟨sources, ts, t, hsources, held, hload, herrors⟩
  · refine Or.inl ⟨_, loaded_of_unread hpaths hbefore hunread, ?_⟩
    rw [report_file]
    exact .fileUnread hpaths hbefore hunread

theorem formula_of_reading {text : String} (h : Complains textAt i (.reading role) text) :
    ∃ f, Invocation.formula role (loaded textAt i role) = .error f ∧ text = f.report := by
  obtain ⟨e, he, htext⟩ := loaded_of_reading h
  exact ⟨.unreadable role e, by rw [he]; rfl, htext⟩

theorem formula_of_validating {text : String} (h : Complains textAt i (.validating role) text) :
    ∃ f, Invocation.formula role (loaded textAt i role) = .error f ∧ text = f.report := by
  obtain ⟨t, es, ht, hes, htext⟩ := loaded_of_validating h
  exact ⟨.invalid role es, by simp only [Invocation.formula, ht, hes], htext⟩

/-- There is a formula exactly if neither stage of its role fails. -/
theorem neither_fails_iff :
    ¬ Fails textAt i (.reading role) ∧ ¬ Fails textAt i (.validating role) ↔
      ∃ t f, loaded textAt i role = .ok t ∧ t.validate = .ok f := by
  constructor
  · intro ⟨hreading, hvalidating⟩
    rcases reading_cases textAt i role with
      ⟨e, -, hc⟩ | ⟨sources, ts, t, hs, held, hload, herrors⟩
    · exact absurd ⟨_, hc⟩ hreading
    · have hreports := reports_validate t
      cases hv : t.validate with
      | ok f => exact ⟨t, f, hload, hv⟩
      | error es =>
        rw [hv, herrors] at hreports
        exact absurd ⟨_, Complains.invalid hs held hreports.2⟩ hvalidating
  · intro ⟨t, f, hload, hv⟩
    constructor
    · intro ⟨text, hc⟩
      obtain ⟨e, he, -⟩ := loaded_of_reading hc
      rw [hload] at he
      cases he
    · intro ⟨text, hc⟩
      obtain ⟨u, es, hu, hes, -⟩ := loaded_of_validating hc
      rw [hload] at hu
      cases hu
      rw [hv] at hes
      cases hes

theorem complains_settings {path : String} {e : SettingsError} (named : i.config = some path)
    (h : Settings.atPath textAt path = .error e) :
    Complains textAt i .settings (Failure.settings path e).report := by
  rw [Settings.atPath] at h
  cases htext : textAt path with
  | error fault =>
    rw [htext] at h
    cases h
    rw [report_settings_file]
    exact .settingsUnread named htext
  | ok text =>
    cases hs : Settings.ofJsonText? text with
    | none =>
      simp only [htext, hs] at h
      cases h
      rw [report_settings_malformed]
      exact .settingsMalformed _ named htext hs
    | some s =>
      simp only [htext, hs] at h
      cases h

theorem settings_fails_iff : Fails textAt i .settings ↔
    ∃ path e, i.config = some path ∧ Settings.atPath textAt path = .error e := by
  constructor
  · intro ⟨text, hc⟩
    cases hc with
    | settingsUnread named unread => exact ⟨_, .file _, named, by rw [Settings.atPath, unread]⟩
    | settingsMalformed words named read malformed =>
      exact ⟨_, .malformed, named, by simp only [Settings.atPath, read, malformed]⟩
  · intro ⟨path, e, hpath, he⟩
    exact ⟨_, complains_settings hpath he⟩

theorem settings_of_fails (h : Fails textAt i .settings) :
    ∃ f, i.settings textAt = .error f ∧ Complains textAt i .settings f.report := by
  obtain ⟨path, e, hpath, he⟩ := settings_fails_iff.mp h
  refine ⟨.settings path e, ?_, complains_settings hpath he⟩
  simp only [Invocation.settings, hpath, he]
  rfl

theorem settings_of_not_fails (h : ¬ Fails textAt i .settings) :
    ∃ s, i.settings textAt = .ok s := by
  rw [Invocation.settings]
  cases hnamed : i.config with
  | none => exact ⟨_, rfl⟩
  | some path =>
    cases hs : Settings.atPath textAt path with
    | error e => exact absurd ⟨_, complains_settings hnamed hs⟩ h
    | ok s => exact ⟨_, by simp only [hs]; rfl⟩

/-- After the settings no stage has two texts. -/
theorem Complains.unique {stage : Stage} {text text' : String}
    (h : Complains textAt i stage text) (h' : Complains textAt i stage text')
    (hstage : stage ≠ .settings) : text = text' := by
  cases stage with
  | settings => exact absurd rfl hstage
  | reading role =>
    obtain ⟨f, hf, rfl⟩ := formula_of_reading h
    obtain ⟨f', hf', rfl⟩ := formula_of_reading h'
    rw [Except.error.inj (hf.symm.trans hf')]
  | validating role =>
    obtain ⟨f, hf, rfl⟩ := formula_of_validating h
    obtain ⟨f', hf', rfl⟩ := formula_of_validating h'
    rw [Except.error.inj (hf.symm.trans hf')]

theorem exists_firstToFail (h : ∃ stage, Fails textAt i stage) :
    ∃ stage, FirstToFail textAt i stage := by
  obtain ⟨stage, hfails, hmin⟩ :=
    (measure Stage.place).wf.has_min {stage | Fails textAt i stage} h
  exact ⟨stage, hfails, fun earlier hlt hearlier => hmin earlier hearlier hlt⟩

theorem Stage.place_injective : Function.Injective Stage.place := by
  intro a b h
  rcases a with _ | ⟨_ | _⟩ | ⟨_ | _⟩ <;> rcases b with _ | ⟨_ | _⟩ | ⟨_ | _⟩ <;>
    first | rfl | cases h

theorem FirstToFail.unique {stage stage' : Stage} (h : FirstToFail textAt i stage)
    (h' : FirstToFail textAt i stage') : stage = stage' := by
  rcases Nat.lt_trichotomy stage.place stage'.place with hlt | heq | hgt
  · exact absurd h.fails (h'.before stage hlt)
  · exact Stage.place_injective heq
  · exact absurd h'.fails (h.before stage' hgt)

end TruthTable.Proofs.Stages
