import TruthTable.Settings.Loading
import TruthTable.Source

/-!
# Failures of a check

A failure names the stage that failed and the causes behind it, the nearest
first.
-/

namespace TruthTable

/-- The two things that are loaded. -/
inductive Role where
  | knowledgeBase
  | statement
deriving DecidableEq

def Role.name : Role → String
  | knowledgeBase => "knowledge base"
  | statement => "statement"

inductive Failure where
  | settings (path : String) (error : SettingsError)
  | unreadable (role : Role) (error : LoadError)
  | invalid (role : Role) (errors : List NodeError)
  | incomplete (error : Incomplete)
  | unwritable (path : String) (fault : FileFault)
deriving DecidableEq

/-- An error of loading, and the error inside it if there is one. -/
def LoadError.causes (e : LoadError) : List String :=
  match e with
  | file _ fault => [e.message, fault.message]
  | line _ _ error => [e.message, error.message]
  | emptyKnowledgeBase => [e.message]
  | missingStatement _ => [e.message]

def SettingsError.causes (e : SettingsError) : List String :=
  [e.message, e.inner]

namespace Failure

/-- The stage that failed. -/
def context : Failure → String
  | settings path _ => "loading config " ++ path
  | unreadable role _ => "reading " ++ role.name
  | invalid role _ => "invalid " ++ role.name
  | incomplete _ => "checking the statement"
  | unwritable path _ => "writing " ++ path

def causes : Failure → List String
  | settings _ error => error.causes
  | unreadable _ error => error.causes
  | invalid _ errors => [NodeError.messages errors]
  | incomplete error => [error.message]
  | unwritable _ fault => [fault.message]

/-- A cause after its margin; its further lines are indented as far. -/
def causeText (margin text : String) : String :=
  let indentation := List.replicate margin.length ' '
  margin ++
    String.ofList (text.toList.flatMap fun c => if c == '\n' then c :: indentation else [c]) ++ "\n"

/-- One cause stands alone; several are numbered from zero. -/
def causesText : List String → String
  | [cause] => causeText "    " cause
  | causes =>
    "".intercalate (causes.mapIdx fun i cause => causeText ("    " ++ toString i ++ ": ") cause)

/-- The text for the reader of the error output. -/
def report (f : Failure) : String :=
  "Error: " ++ f.context ++ "\n\nCaused by:\n" ++ causesText f.causes

end Failure

end TruthTable
