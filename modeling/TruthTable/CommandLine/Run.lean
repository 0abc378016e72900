import TruthTable.CommandLine.Failure
import TruthTable.CommandLine.Invocation
import TruthTable.Directory
import TruthTable.Formula.Reading

/-!
# Running a command

The settings are loaded first, then the knowledge base and then the statement,
each read and validated; the first stage that fails is the failure of the whole.
Only then is the statement checked, the verdict written and the answer printed.
-/

namespace TruthTable

/-- A knowledge base and a statement, with the settings to check them by. -/
structure Problem where
  kb : Formula
  statement : Formula
  settings : Settings

def Problem.check (p : Problem) : Except Failure Report :=
  match Report.make p.kb p.statement p.settings with
  | .ok r => .ok r
  | .error e => .error (.incomplete e)

namespace Invocation

/-- The settings of the file, if one is named, as the flags change them. -/
def settings (i : Invocation) (textAt : TextAt) : Except Failure Settings := do
  let loaded ← match i.config with
    | none => pure {}
    | some path =>
      match Settings.atPath textAt path with
      | .ok s => pure s
      | .error e => throw (.settings path e)
  let chosen := if i.exhaustive then .exhaustive else loaded
  return if i.noLiteralForcing then { chosen with literalForcing := false } else chosen

/-- The formula that a loaded tree denotes. -/
def formula (role : Role) (tree : Except LoadError Tree) : Except Failure Formula :=
  match tree with
  | .error e => .error (.unreadable role e)
  | .ok t =>
    match t.validate with
    | .error es => .error (.invalid role es)
    | .ok f => .ok f

def problem (i : Invocation) (textAt : TextAt) : Except Failure Problem := do
  let settings ← i.settings textAt
  let kb ← formula .knowledgeBase (Source.knowledgeBaseAt textAt i.knowledgeBase)
  let statement ← formula .statement (Source.statementAt textAt i.statement)
  return ⟨kb, statement, settings⟩

/-- What is written to the output file. -/
def written (r : Report) : String :=
  r.verdict.render ++ "\n"

/-- What is printed: the verdict, or the whole report with the time it took. -/
def printed (i : Invocation) (r : Report) (nanoseconds : Nat) : String :=
  (if i.json then r.json nanoseconds else r.verdict.render) ++ "\n"

end Invocation

/-- What a command leaves behind. -/
structure Run where
  code : Nat
  stdout : String
  stderr : String
  directory : Directory

namespace Run

def versionText : String :=
  "check_true_false 0.1.0\n"

def usageText : String :=
  "Usage: check_true_false [OPTIONS] --statement <STATEMENT> <KNOWLEDGE_BASE>...\n"

def helpText : String :=
  "Check whether a statement follows from a propositional knowledge base\n\n" ++
  usageText ++
  "\nArguments:\n" ++
  "  <KNOWLEDGE_BASE>...  Knowledge base files, one expression per line\n" ++
  "\nOptions:\n" ++
  "  -s, --statement <STATEMENT>  File whose first expression line is the statement\n" ++
  "  -o, --output <OUTPUT>        Where to write the verdict [default: result.txt]\n" ++
  "      --config <CONFIG>        JSON file with checker settings\n" ++
  "      --no-literal-forcing     Enumerate symbols the knowledge base states as facts\n" ++
  "      --exhaustive             Disable every pruning optimization\n" ++
  "      --json                   Print the full report as JSON\n" ++
  "  -v, --verbose                Show debug logging\n" ++
  "  -h, --help                   Print help\n" ++
  "  -V, --version                Print version\n"

/-- The text for arguments that make no command. -/
def misuseText (e : UsageError) : String :=
  "error: " ++ e.message ++ "\n\n" ++ usageText

/-- Run a check in a directory. -/
def check (d : Directory) (nanoseconds : Nat) (i : Invocation) : Run :=
  let answer : Except Failure (Report × Directory) := do
    let problem ← i.problem d.textAt
    let report ← problem.check
    match d.write i.output (Invocation.written report) with
    | .ok after => return (report, after)
    | .error fault => throw (.unwritable i.output fault)
  match answer with
  | .ok (report, after) => ⟨0, i.printed report nanoseconds, "", after⟩
  | .error failure => ⟨1, "", failure.report, d⟩

/-- Run the command that the arguments make, in a directory. -/
def ofArguments (d : Directory) (nanoseconds : Nat) (arguments : List String) : Run :=
  match Request.ofArguments arguments with
  | .help => ⟨0, helpText, "", d⟩
  | .version => ⟨0, versionText, "", d⟩
  | .misuse e => ⟨2, "", misuseText e, d⟩
  | .check i => check d nanoseconds i

end Run

end TruthTable
