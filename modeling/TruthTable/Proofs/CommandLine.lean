import TruthTable.Proofs.Entailment
import TruthTable.Proofs.Stages
import TruthTable.Proofs.Writing

/-!
# A command does all or nothing

Five stages come before the check, each with failures of its own. The text of the first
one that fails is what a command reports, and then it prints nothing and touches no
file. If none fails there is a verdict, and it is settled by the texts of the
knowledge base and the statement alone: it is given here by the assignments that
satisfy the formulas on the lines of those texts, without settings or flags, and
written in one of four texts.
-/

namespace TruthTable.Proofs.CommandLine

open Entailment Loading Stages Writing

def Satisfies (v : Symbol → Bool) (premises : List Formula) : Prop :=
  ∀ f ∈ premises, f.holds v = true

/-- What the assignments that satisfy the premises say about a statement. -/
def Describes (premises : List Formula) (statement : Formula) : Verdict → Prop
  | .definitelyTrue =>
    (∃ v, Satisfies v premises) ∧ ∀ v, Satisfies v premises → statement.holds v = true
  | .definitelyFalse =>
    (∃ v, Satisfies v premises) ∧ ∀ v, Satisfies v premises → statement.holds v = false
  | .unknown =>
    (∃ v, Satisfies v premises ∧ statement.holds v = true) ∧
      ∃ v, Satisfies v premises ∧ statement.holds v = false
  | .inconsistent => ¬ ∃ v, Satisfies v premises

/-- One verdict describes the premises, the one that the two answers make. -/
theorem describes_iff {premises : List Formula} {kb statement : Formula} {asserted negated : Bool}
    (hkb : ∀ v, kb.holds v = true ↔ Satisfies v premises)
    (ha : asserted = true ↔ Entails kb statement)
    (hn : negated = true ↔ Entails kb (.not statement)) (verdict : Verdict) :
    Describes premises statement verdict ↔ Verdict.classify asserted negated = verdict := by
  cases verdict with
  | definitelyTrue =>
    rw [classify_eq_definitelyTrue, ha, hn, and_comm,
      and_congr_left not_entails_not_iff_satisfiable]
    simp only [Describes, Satisfiable, Entails, hkb]
  | definitelyFalse =>
    rw [classify_eq_definitelyFalse, ha, hn, and_congr_left not_entails_iff_satisfiable,
      entails_not_iff]
    simp only [Describes, Satisfiable, hkb]
  | unknown =>
    rw [classify_eq_unknown, ha, hn, not_entails_iff, not_entails_not_iff, and_comm]
    simp only [Describes, hkb]
  | inconsistent =>
    rw [classify_eq_inconsistent, ha, hn, entails_both_iff]
    simp only [Describes, Satisfiable, hkb]

/-- A problem is always decided, and its settings do not show in the verdict. -/
theorem check_describes (p : Problem) {premises : List Formula}
    (hkb : ∀ v, p.kb.holds v = true ↔ Satisfies v premises) :
    ∃ r, p.check = .ok r ∧
      ∀ verdict, Describes premises p.statement verdict ↔ r.verdict = verdict := by
  obtain ⟨r, hr, hverdict, hs, hn⟩ := exists_report p.kb p.statement p.settings
  refine ⟨r, by rw [Problem.check, hr], fun verdict => ?_⟩
  rw [hverdict]
  exact describes_iff hkb hs hn verdict

/-- The verdict that texts call for: the formulas on all lines of the knowledge base
that hold expressions, against the formula on the first such line of the
statement. -/
def Answer (textAt : TextAt) (knowledgeBase : List String) (statementPath : String)
    (verdict : Verdict) : Prop :=
  ∃ texts premises text line rest statement,
    HaveTexts textAt knowledgeBase texts ∧ HoldFormulas (texts.flatMap contentLines) premises ∧
    textAt statementPath = .ok text ∧ contentLines text = line :: rest ∧
    Formula.read (String.ofList line) = .ok statement ∧ Describes premises statement verdict

/-- The texts settle which formulas the verdict is about. -/
theorem Answer.describes {textAt : TextAt} {knowledgeBase texts : List String}
    {statementPath text : String} {verdict : Verdict} {premises : List Formula}
    {line : List Char} {rest : List (List Char)} {statement : Formula}
    (h : Answer textAt knowledgeBase statementPath verdict)
    (htexts : HaveTexts textAt knowledgeBase texts)
    (hpremises : HoldFormulas (texts.flatMap contentLines) premises)
    (htext : textAt statementPath = .ok text) (hlines : contentLines text = line :: rest)
    (hline : Formula.read (String.ofList line) = .ok statement) :
    Describes premises statement verdict := by
  obtain ⟨texts', premises', text', line', rest', statement', htexts', hpremises', htext',
    hlines', hline', hdescribes⟩ := h
  obtain rfl := htexts.unique htexts'
  obtain rfl := hpremises.unique hpremises'
  obtain rfl := Except.ok.inj (htext.symm.trans htext')
  obtain ⟨rfl, rfl⟩ := List.cons.inj (hlines.symm.trans hlines')
  obtain rfl := Except.ok.inj (hline.symm.trans hline')
  exact hdescribes

theorem problem_eq (textAt : TextAt) (i : Invocation) :
    i.problem textAt = (do
      let settings ← i.settings textAt
      let kb ← Invocation.formula .knowledgeBase (loaded textAt i .knowledgeBase)
      let statement ← Invocation.formula .statement (loaded textAt i .statement)
      return ⟨kb, statement, settings⟩) := rfl

theorem formula_of_validate {loaded : Except LoadError Tree} {t : Tree} {f : Formula} (role : Role)
    (h : loaded = .ok t) (hf : t.validate = .ok f) : Invocation.formula role loaded = .ok f := by
  simp only [Invocation.formula, h, hf]

/-- The two formulas make a problem under any settings that are loaded. -/
theorem problem_of_validate {textAt : TextAt} {i : Invocation} {t u : Tree} {kb statement : Formula}
    (hsettings : ¬ Fails textAt i .settings) (ht : loaded textAt i .knowledgeBase = .ok t)
    (hkb : t.validate = .ok kb) (hu : loaded textAt i .statement = .ok u)
    (hst : u.validate = .ok statement) :
    ∃ settings, i.problem textAt = .ok ⟨kb, statement, settings⟩ := by
  obtain ⟨s, hs⟩ := settings_of_not_fails hsettings
  refine ⟨s, ?_⟩
  rw [problem_eq, hs, formula_of_validate _ ht hkb, formula_of_validate _ hu hst]
  rfl

theorem problem_of_settings {textAt : TextAt} {i : Invocation} {f : Failure}
    (h : i.settings textAt = .error f) : i.problem textAt = .error f := by
  rw [problem_eq, h]
  rfl

/-- A formula is made only after all stages before the reading of it. -/
theorem problem_of_formula {textAt : TextAt} {i : Invocation} {stage : Stage} {role : Role}
    {f : Failure} (h : FirstToFail textAt i stage)
    (hplace : (Stage.reading role).place ≤ stage.place)
    (hf : Invocation.formula role (loaded textAt i role) = .error f) :
    i.problem textAt = .error f := by
  have hbefore : ∀ earlier : Stage, earlier.place < (Stage.reading role).place →
      ¬ Fails textAt i earlier :=
    fun earlier hlt => h.before earlier (Nat.lt_of_lt_of_le hlt hplace)
  obtain ⟨s, hs⟩ := settings_of_not_fails (hbefore .settings (by cases role <;> decide))
  rw [problem_eq, hs]
  cases role with
  | knowledgeBase =>
    rw [hf]
    rfl
  | statement =>
    have hreading := hbefore (.reading .knowledgeBase) (by decide)
    have hvalidating := hbefore (.validating .knowledgeBase) (by decide)
    obtain ⟨t, kb, ht, hkb⟩ := neither_fails_iff.mp ⟨hreading, hvalidating⟩
    rw [formula_of_validate _ ht hkb, hf]
    rfl

/-- The first stage that fails stands for all. -/
theorem problem_of_first {textAt : TextAt} {i : Invocation} {stage : Stage}
    (h : FirstToFail textAt i stage) :
    ∃ f, i.problem textAt = .error f ∧ Complains textAt i stage f.report := by
  obtain ⟨text, hc⟩ := h.fails
  cases stage with
  | settings =>
    obtain ⟨f, hf, hreport⟩ := settings_of_fails h.fails
    exact ⟨f, problem_of_settings hf, hreport⟩
  | reading role =>
    obtain ⟨f, hf, rfl⟩ := formula_of_reading hc
    exact ⟨f, problem_of_formula h (Nat.le_refl _) hf, hc⟩
  | validating role =>
    obtain ⟨f, hf, rfl⟩ := formula_of_validating hc
    exact ⟨f, problem_of_formula h (by cases role <;> decide) hf, hc⟩

/-- Two commands about the same texts. Their settings files, their flags and where
they write may differ. -/
structure SameQuestion (textAt textAt' : TextAt) (i i' : Invocation) : Prop where
  knowledgeBase : i'.knowledgeBase = i.knowledgeBase
  statement : i'.statement = i.statement
  texts : ∀ path ∈ i.statement :: i.knowledgeBase, textAt' path = textAt path

theorem SameQuestion.loaded_eq {textAt textAt' : TextAt} {i i' : Invocation}
    (h : SameQuestion textAt textAt' i i') (role : Role) :
    loaded textAt' i' role = loaded textAt i role := by
  cases role with
  | knowledgeBase =>
    rw [loaded, loaded, h.knowledgeBase]
    exact knowledgeBaseAt_congr fun path hp => h.texts path (List.mem_cons_of_mem _ hp)
  | statement =>
    rw [loaded, loaded, h.statement]
    exact statementAt_congr (h.texts i.statement (List.mem_cons_self ..))

/-- Without a failure there is one verdict for all commands that ask the question. -/
theorem exists_verdict {textAt : TextAt} {i : Invocation}
    (h : ∀ stage, ¬ Fails textAt i stage) :
    ∃ verdict, (∀ v, Answer textAt i.knowledgeBase i.statement v ↔ v = verdict) ∧
      ∀ {textAt' : TextAt} {i' : Invocation}, SameQuestion textAt textAt' i i' →
        ¬ Fails textAt' i' .settings →
        ∃ p r, i'.problem textAt' = .ok p ∧ p.check = .ok r ∧ r.verdict = verdict := by
  obtain ⟨t, kb, ht, hkb⟩ := neither_fails_iff.mp ⟨h (.reading .knowledgeBase), h _⟩
  obtain ⟨u, statement, hu, hst⟩ := neither_fails_iff.mp ⟨h (.reading .statement), h _⟩
  obtain ⟨texts, premises, htexts, hpremises, hholds⟩ := holdFormulas_of_kb ht hkb
  obtain ⟨text, line, rest, htext, hlines, hline⟩ := read_of_statement hu hst
  obtain ⟨r, -, hr⟩ := check_describes ⟨kb, statement, {}⟩ hholds
  have hanswer : ∀ v, Answer textAt i.knowledgeBase i.statement v ↔
      Describes premises statement v := by
    intro v
    refine ⟨fun hv => hv.describes htexts hpremises htext hlines hline, fun hv => ?_⟩
    exact ⟨texts, premises, text, line, rest, statement, htexts, hpremises, htext, hlines, hline,
      hv⟩
  refine ⟨r.verdict, fun v => by rw [hanswer, hr, eq_comm], fun {textAt' i'} hsame hsettings => ?_⟩
  rw [← hsame.loaded_eq] at ht hu
  obtain ⟨s, hp⟩ := problem_of_validate hsettings ht hkb hu hst
  obtain ⟨r', hr', hd⟩ := check_describes ⟨kb, statement, s⟩ hholds
  exact ⟨_, r', hp, hr', (hd r.verdict).mp ((hr r.verdict).mpr rfl)⟩

theorem check_of_error {d : Directory} {i : Invocation} {f : Failure} (nanoseconds : Nat)
    (h : i.problem d.textAt = .error f) :
    Run.check d nanoseconds i = ⟨1, "", f.report, d⟩ := by
  simp only [Run.check, h]
  rfl

theorem check_of_ok {d after : Directory} {i : Invocation} {p : Problem} {r : Report}
    (nanoseconds : Nat) (hp : i.problem d.textAt = .ok p) (hr : p.check = .ok r)
    (hw : d.write i.output (Invocation.written r) = .ok after) :
    Run.check d nanoseconds i = ⟨0, i.printed r nanoseconds, "", after⟩ := by
  simp only [Run.check, hp, bind, Except.bind, hr, hw]
  rfl

def verdictWords : Verdict → String
  | .definitelyTrue => "definitely true"
  | .definitelyFalse => "definitely false"
  | .unknown => "possibly true, possibly false"
  | .inconsistent => "both true and false"

theorem verdictWords_eq (verdict : Verdict) : verdictWords verdict = verdict.render := by
  cases verdict <;> rfl

/-- The words of the verdict are in the output file and, if no report was asked for, on a
line by themselves in the output. Nothing else has changed. -/
structure Succeeds (d : Directory) (i : Invocation) (verdict : Verdict) (run : Run) : Prop where
  code : run.code = 0
  written : Written d run.directory i.output (verdictWords verdict ++ "\n")
  stdout : i.json = false → run.stdout = verdictWords verdict ++ "\n"

theorem succeeds_check {d : Directory} {i : Invocation} {p : Problem} {r : Report}
    (nanoseconds : Nat) (hp : i.problem d.textAt = .ok p) (hr : p.check = .ok r)
    (hw : Writable d i.output) : Succeeds d i r.verdict (Run.check d nanoseconds i) := by
  obtain ⟨location, hl, hs, hwrite⟩ := hw.write (Invocation.written r)
  rw [check_of_ok nanoseconds hp hr hwrite]
  refine ⟨rfl, ?_, fun hjson => ?_⟩
  · rw [verdictWords_eq]
    exact written_put hl hs (r.verdict.render ++ "\n")
  · simp only [Invocation.printed, hjson, verdictWords_eq]
    rfl

theorem ofArguments_eq_check {arguments : List String} {i : Invocation}
    (h : Request.ofArguments arguments = .check i) (d : Directory) (nanoseconds : Nat) :
    Run.ofArguments d nanoseconds arguments = Run.check d nanoseconds i := by
  rw [Run.ofArguments, h]

/-- **All or nothing.** If a stage fails there is a first one, and its text is reported, with
exit code one, no output and no file changed. If no stage fails, the texts call for one
verdict; the command writes it if it can, and so does every other command about the same
texts, whatever its flags and whatever its settings file if this can be loaded. -/
theorem ofArguments_all_or_nothing (d : Directory) (nanoseconds : Nat) (arguments : List String)
    (i : Invocation) (h : Request.ofArguments arguments = .check i) :
    ((∃ stage, Fails d.textAt i stage) →
      ∃ stage text, FirstToFail d.textAt i stage ∧ Complains d.textAt i stage text ∧
        Run.ofArguments d nanoseconds arguments = ⟨1, "", text, d⟩) ∧
    ((∀ stage, ¬ Fails d.textAt i stage) → ∃ verdict,
      (∀ v, Answer d.textAt i.knowledgeBase i.statement v ↔ v = verdict) ∧
      (Writable d i.output → Succeeds d i verdict (Run.ofArguments d nanoseconds arguments)) ∧
      ∀ (d' : Directory) (nanoseconds' : Nat) (arguments' : List String) (i' : Invocation),
        Request.ofArguments arguments' = .check i' → SameQuestion d.textAt d'.textAt i i' →
        ¬ Fails d'.textAt i' .settings → Writable d' i'.output →
        Succeeds d' i' verdict (Run.ofArguments d' nanoseconds' arguments')) := by
  constructor
  · intro hfails
    obtain ⟨stage, hfirst⟩ := exists_firstToFail hfails
    obtain ⟨f, hp, hc⟩ := problem_of_first hfirst
    refine ⟨stage, f.report, hfirst, hc, ?_⟩
    rw [ofArguments_eq_check h]
    exact check_of_error nanoseconds hp
  · intro hnone
    obtain ⟨verdict, hanswer, hall⟩ := exists_verdict hnone
    refine ⟨verdict, hanswer, ?_, ?_⟩
    · intro hw
      obtain ⟨p, r, hp, hr, rfl⟩ := hall ⟨rfl, rfl, fun _ _ => rfl⟩ (hnone .settings)
      rw [ofArguments_eq_check h]
      exact succeeds_check nanoseconds hp hr hw
    · intro d' nanoseconds' arguments' i' h' hsame hsettings hw
      obtain ⟨p, r, hp, hr, rfl⟩ := hall hsame hsettings
      rw [ofArguments_eq_check h']
      exact succeeds_check nanoseconds' hp hr hw

/-- An implication and its premise in one file, its conclusion in another, and settings. -/
def threeFiles : Directory :=
  Directory.ofList [("kb", "(if A B)\nA\n".toUTF8), ("st", "B\n".toUTF8),
    ("set", "\x7b\"short_circuit\": false\x7d".toUTF8)]

def oneStep : Invocation :=
  ⟨["kb"], "st", "result.txt", none, false, false, false, false⟩

/-- The same command with settings and a flag. -/
def withSettings : Invocation :=
  { oneStep with config := some "set", noLiteralForcing := true }

/-- The same command about a file that is not there. -/
def noStatement : Invocation :=
  { oneStep with statement := "none" }

def noStatementText : String :=
  "Error: reading statement\n\nCaused by:\n" ++
  "    0: failed to read none: No such file or directory (os error 2)\n" ++
  "    1: No such file or directory (os error 2)\n"

theorem textAt_kb : threeFiles.textAt "kb" = .ok "(if A B)\nA\n" :=
  textAt_of_locate ⟨["", "kb"]⟩ (by decide +kernel) (by decide +kernel) rfl

theorem textAt_st : threeFiles.textAt "st" = .ok "B\n" :=
  textAt_of_locate ⟨["", "st"]⟩ (by decide +kernel) (by decide +kernel) rfl

theorem textAt_set : threeFiles.textAt "set" = .ok "\x7b\"short_circuit\": false\x7d" :=
  textAt_of_locate ⟨["", "set"]⟩ (by decide +kernel) (by decide +kernel) rfl

theorem textAt_none : threeFiles.textAt "none" = .error .notFound := by
  have hlocate : threeFiles.locate "none" = .ok (.vacant ⟨["", "none"]⟩) := by decide +kernel
  rw [Directory.textAt, hlocate]

theorem settings_threeFiles {i : Invocation} (h : i.config = none) :
    ¬ Fails threeFiles.textAt i .settings := by
  intro hfails
  obtain ⟨path, e, hpath, -⟩ := settings_fails_iff.mp hfails
  rw [h] at hpath
  cases hpath

theorem settings_withSettings : ¬ Fails threeFiles.textAt withSettings .settings := by
  have hset : Settings.atPath threeFiles.textAt "set" = .ok ⟨true, false⟩ := by
    rw [Settings.atPath, textAt_set]
    decide +kernel
  intro hfails
  obtain ⟨path, e, hpath, he⟩ := settings_fails_iff.mp hfails
  cases hpath
  rw [hset] at he
  cases he

theorem knowledgeBase_threeFiles {i : Invocation} (h : i.knowledgeBase = ["kb"]) :
    ¬ Fails threeFiles.textAt i (.reading .knowledgeBase) ∧
      ¬ Fails threeFiles.textAt i (.validating .knowledgeBase) := by
  have hsources : HaveSources threeFiles.textAt (pathsOf i .knowledgeBase)
      [⟨"kb", "(if A B)\nA\n"⟩] := by
    rw [pathsOf, h]
    exact .cons ⟨rfl, textAt_kb⟩ .nil
  refine neither_fails_iff.mpr
    ⟨.node "and" [.node "if" [.leaf "A", .leaf "B"], .leaf "A"], _, ?_, rfl⟩
  rw [loaded_knowledgeBase hsources]
  decide +kernel

theorem statement_oneStep :
    ¬ Fails threeFiles.textAt oneStep (.reading .statement) ∧
      ¬ Fails threeFiles.textAt oneStep (.validating .statement) := by
  refine neither_fails_iff.mpr ⟨.leaf "B", _, ?_, rfl⟩
  have hsource := ofPath_eq_ok_iff (s := ⟨"st", "B\n"⟩).mpr ⟨rfl, textAt_st⟩
  rw [loaded, oneStep, Source.statementAt, hsource]
  decide +kernel

theorem not_fails_oneStep (stage : Stage) : ¬ Fails threeFiles.textAt oneStep stage := by
  cases stage with
  | settings => exact settings_threeFiles rfl
  | reading role =>
    cases role with
    | knowledgeBase => exact (knowledgeBase_threeFiles rfl).1
    | statement => exact statement_oneStep.1
  | validating role =>
    cases role with
    | knowledgeBase => exact (knowledgeBase_threeFiles rfl).2
    | statement => exact statement_oneStep.2

theorem complains_noStatement :
    Complains threeFiles.textAt noStatement (.reading .statement) noStatementText := by
  have hpaths : pathsOf noStatement .statement = [] ++ "none" :: [] := rfl
  have htext : errorText ("reading " ++ roleWords .statement)
      (nested ("failed to read " ++ "none" ++ ": " ++ faultWords .notFound)
        (faultWords .notFound)) = noStatementText := by decide +kernel
  rw [← htext]
  exact .fileUnread hpaths (List.forall_mem_nil _) textAt_none

theorem firstToFail_noStatement :
    FirstToFail threeFiles.textAt noStatement (.reading .statement) := by
  refine ⟨⟨_, complains_noStatement⟩, ?_⟩
  intro earlier hlt
  rcases earlier with _ | ⟨_ | _⟩ | ⟨_ | _⟩
  · exact settings_threeFiles rfl
  · exact (knowledgeBase_threeFiles rfl).1
  · exact absurd hlt (by decide)
  · exact (knowledgeBase_threeFiles rfl).2
  · exact absurd hlt (by decide)

theorem answer_oneStep : Answer threeFiles.textAt ["kb"] "st" .definitelyTrue := by
  let premise : Formula := .atom ⟨"A", rfl⟩
  let conclusion : Formula := .atom ⟨"B", rfl⟩
  have hpremises : HoldFormulas (["(if A B)\nA\n"].flatMap contentLines)
      [.binary .implies premise conclusion, premise] :=
    .cons (read_of_readAll (t := .node "if" [.leaf "A", .leaf "B"]) (by decide +kernel) rfl)
      (.cons (read_of_readAll (t := .leaf "A") (by decide +kernel) rfl) .nil)
  have hconclusion : Formula.read (String.ofList ['B']) = .ok conclusion :=
    read_of_readAll (t := .leaf "B") (by decide +kernel) rfl
  refine ⟨_, _, _, ['B'], [], conclusion, .cons textAt_kb .nil, hpremises, textAt_st,
    by decide +kernel, hconclusion, ⟨fun _ => true, ?_⟩, ?_⟩
  · rw [Satisfies]
    decide
  · intro v hv
    have himplies := hv _ (List.mem_cons_self ..)
    have hpremise := hv premise (by simp)
    rw [Formula.holds, hpremise] at himplies
    exact himplies

theorem writable_oneStep : Writable threeFiles oneStep.output :=
  ⟨"", _, write_eq_ok_iff.mpr ⟨⟨["", "result.txt"]⟩, Or.inr (by decide +kernel),
    by decide +kernel, rfl⟩⟩

theorem ofArguments_oneStep :
    Request.ofArguments ["kb", "-s", "st"] = .check oneStep ∧
    (∀ stage, ¬ Fails threeFiles.textAt oneStep stage) ∧
    Answer threeFiles.textAt ["kb"] "st" .definitelyTrue ∧
    (Run.ofArguments threeFiles 0 ["kb", "-s", "st"]).code = 0 ∧
    (Run.ofArguments threeFiles 0 ["kb", "-s", "st"]).stdout = "definitely true\n" ∧
    Written threeFiles (Run.ofArguments threeFiles 0 ["kb", "-s", "st"]).directory "result.txt"
      "definitely true\n" ∧
    (Run.ofArguments threeFiles 5
      ["--config=set", "--no-literal-forcing", "kb", "-s", "st"]).stdout = "definitely true\n" ∧
    FirstToFail threeFiles.textAt noStatement (.reading .statement) ∧
    Run.ofArguments threeFiles 0 ["kb", "-s", "none"] = ⟨1, "", noStatementText, threeFiles⟩ := by
  have h : Request.ofArguments ["kb", "-s", "st"] = .check oneStep := by decide +kernel
  have hset : Request.ofArguments ["--config=set", "--no-literal-forcing", "kb", "-s", "st"] =
      .check withSettings := by decide +kernel
  have h' : Request.ofArguments ["kb", "-s", "none"] = .check noStatement := by decide +kernel
  obtain ⟨verdict, hanswer, hrun, hothers⟩ :=
    (ofArguments_all_or_nothing threeFiles 0 ["kb", "-s", "st"] oneStep h).2 not_fails_oneStep
  obtain rfl := (hanswer .definitelyTrue).mp answer_oneStep
  obtain ⟨stage, text, hfirst, hc, hrun'⟩ :=
    (ofArguments_all_or_nothing threeFiles 0 ["kb", "-s", "none"] noStatement h').1
      ⟨_, firstToFail_noStatement.fails⟩
  obtain rfl := firstToFail_noStatement.unique hfirst
  obtain rfl := hc.unique complains_noStatement (by decide)
  have hsucceeds := hrun writable_oneStep
  have hother := hothers threeFiles 5 _ withSettings hset ⟨rfl, rfl, fun _ _ => rfl⟩
    settings_withSettings writable_oneStep
  exact ⟨h, not_fails_oneStep, answer_oneStep, hsucceeds.code, hsucceeds.stdout rfl,
    hsucceeds.written, hother.stdout rfl, firstToFail_noStatement, hrun'⟩

end TruthTable.Proofs.CommandLine
