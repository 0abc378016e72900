import TruthTable.FileFault
import TruthTable.Tree.Reader

/-!
# Knowledge bases and statements as text

A source is a named text with one expression on each line. Blank lines, and
lines that start with `#`, hold none. A knowledge base is the conjunction of all
expressions of its sources; a statement is the first expression of its source.
-/

namespace TruthTable

/-- Why a knowledge base or a statement could not be loaded. -/
inductive LoadError where
  | file (path : String) (fault : FileFault)
  | line (source : String) (number : Nat) (error : ReadError)
  | emptyKnowledgeBase
  | missingStatement (source : String)
deriving DecidableEq

namespace LoadError

def message : LoadError → String
  | file path fault => "failed to read " ++ path ++ ": " ++ fault.message
  | line source number error => source ++ ":" ++ toString number ++ ": " ++ error.message
  | emptyKnowledgeBase => "knowledge base is empty"
  | missingStatement source => "no statement found in " ++ source

end LoadError

/-- Cut a text into lines. The line under way is held latest character first. A
line feed ends a line, together with a carriage return right before it; the end
of the text ends a line only if it is not empty. -/
def splitLinesFrom : List Char → List Char → List (List Char)
  | [], [] => []
  | line, [] => [line.reverse]
  | line, c :: cs =>
    if c == '\n' then
      let line := match line with
        | '\r' :: rest => rest
        | line => line
      line.reverse :: splitLinesFrom [] cs
    else splitLinesFrom (c :: line) cs

def splitLines (text : List Char) : List (List Char) :=
  splitLinesFrom [] text

/-- Whether a line should hold an expression. -/
def isContent (line : List Char) : Bool :=
  match line.dropWhile isSeparator with
  | [] => false
  | c :: _ => c != '#'

structure Source where
  name : String
  text : String
deriving DecidableEq

namespace Source

/-- Read the lines that hold expressions; `number` is that of the first line.
The first line that cannot be read is the error. -/
def readLines (name : String) (number : Nat) : List (List Char) → Except LoadError (List Tree)
  | [] => .ok []
  | line :: rest =>
    if isContent line then
      match Tree.readAll line with
      | .ok t => (readLines name (number + 1) rest).map (t :: ·)
      | .error e => .error (.line name number e)
    else readLines name (number + 1) rest

/-- The expressions of a source in order. Lines are numbered from one, and those
without an expression count. -/
def expressions (s : Source) : Except LoadError (List Tree) :=
  readLines s.name 1 (splitLines s.text.toList)

/-- The expressions of several sources in order. -/
def allExpressions : List Source → Except LoadError (List Tree)
  | [] => .ok []
  | s :: rest => do
    let here ← s.expressions
    let others ← allExpressions rest
    return here ++ others

/-- The conjunction of all expressions. -/
def knowledgeBase (sources : List Source) : Except LoadError Tree :=
  match allExpressions sources with
  | .ok [] => .error .emptyKnowledgeBase
  | .ok ts => .ok (.node "and" ts)
  | .error e => .error e

/-- The first expression. The lines after it must be readable too. -/
def statement (s : Source) : Except LoadError Tree :=
  match s.expressions with
  | .ok [] => .error (.missingStatement s.name)
  | .ok (t :: _) => .ok t
  | .error e => .error e

/-- The text at a path, as a source of that name. -/
def ofPath (textAt : TextAt) (path : String) : Except LoadError Source :=
  match textAt path with
  | .ok text => .ok ⟨path, text⟩
  | .error fault => .error (.file path fault)

/-- Every file is looked up before any is read as expressions. -/
def knowledgeBaseAt (textAt : TextAt) (paths : List String) : Except LoadError Tree := do
  knowledgeBase (← paths.mapM (ofPath textAt))

def statementAt (textAt : TextAt) (path : String) : Except LoadError Tree := do
  (← ofPath textAt path).statement

end Source

end TruthTable
