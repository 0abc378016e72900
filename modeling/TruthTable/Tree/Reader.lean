import TruthTable.Symbol
import TruthTable.Tree

/-!
# Reading prefix notation

Reading is one pass over the characters by a small machine with a stack. The
stack holds the compounds that are still open, innermost first. Each state says
what has been read of the innermost one:

* `start`: nothing but separators;
* `openHead`: an opening parenthesis, the head word is still to come;
* `head`: part of a head word;
* `args`: a head and some arguments;
* `atom`: part of a bare word.

A word ends at a separator, at a closing parenthesis or at the end of the text;
any other character after a word is unexpected. Nothing is looked at after the
closing parenthesis of the outermost compound.
-/

namespace TruthTable

/-- The characters that stand between words and mean nothing else. -/
def isSeparator (c : Char) : Bool :=
  c == ' ' || c == '\t' || c == '\r' || c == '\n'

/-- Why a text could not be read. Positions count characters from zero. -/
inductive ReadError where
  | unexpected (character : Char) (position : Nat)
  | unterminated
  | trailing (position : Nat)
  | empty
deriving DecidableEq

namespace ReadError

def message : ReadError → String
  | unexpected character position =>
    "unexpected character '" ++ character.toString ++ "' at position " ++ toString position
  | unterminated => "unexpected end of input: unterminated expression"
  | trailing position => "unexpected trailing input at position " ++ toString position
  | empty => "no expression in input"

end ReadError

namespace Reader

/-- A compound that is still open, with the arguments read so far, latest
first. -/
structure Frame where
  head : String
  args : List Tree

namespace Frame

def add (f : Frame) (t : Tree) : Frame :=
  ⟨f.head, t :: f.args⟩

def close (f : Frame) : Tree :=
  .node f.head f.args.reverse

end Frame

/-- Words under way are held latest character first. -/
inductive State where
  | start
  | openHead (outer : List Frame)
  | head (word : List Char) (outer : List Frame)
  | args (frame : Frame) (outer : List Frame)
  | atom (word : List Char) (outer : List Frame)

/-- What one character does. -/
inductive Step where
  /-- The character is read and the expression goes on. -/
  | next (state : State)
  /-- The character is the last one of the expression. -/
  | last (tree : Tree)
  /-- The expression ended before the character. -/
  | before (tree : Tree)
  /-- No expression goes on with the character. -/
  | reject

def wordOf (word : List Char) : String :=
  String.ofList word.reverse

/-- Hand a finished compound to the one around it. -/
def deliver (t : Tree) : List Frame → Step
  | [] => .last t
  | f :: outer => .next (.args (f.add t) outer)

def step : State → Char → Step
  | .start, c =>
    if isSeparator c then .next .start
    else if c == '(' then .next (.openHead [])
    else if isWordChar c then .next (.atom [c] [])
    else .reject
  | .openHead outer, c =>
    if isSeparator c then .next (.openHead outer)
    else if isWordChar c then .next (.head [c] outer)
    else .reject
  | .head word outer, c =>
    if isWordChar c then .next (.head (c :: word) outer)
    else if isSeparator c then .next (.args ⟨wordOf word, []⟩ outer)
    else if c == ')' then deliver (.node (wordOf word) []) outer
    else .reject
  | .args frame outer, c =>
    if isSeparator c then .next (.args frame outer)
    else if c == ')' then deliver frame.close outer
    else if c == '(' then .next (.openHead (frame :: outer))
    else if isWordChar c then .next (.atom [c] (frame :: outer))
    else .reject
  | .atom word outer, c =>
    if isWordChar c then .next (.atom (c :: word) outer)
    else if isSeparator c || c == ')' then
      match outer with
      | [] => .before (.leaf (wordOf word))
      | f :: outer =>
        let f := f.add (.leaf (wordOf word))
        if c == ')' then deliver f.close outer else .next (.args f outer)
    else .reject

/-- How a run over a text ends. -/
inductive Outcome where
  /-- A tree, and the text after it. -/
  | tree (tree : Tree) (rest : List Char)
  /-- A character that no expression goes on with, and the text after it. -/
  | unexpected (character : Char) (rest : List Char)
  /-- The text ended inside an expression. -/
  | unterminated

/-- A bare word outside every compound is the one state that may end the text. -/
def finish : State → Outcome
  | .atom word [] => .tree (.leaf (wordOf word)) []
  | _ => .unterminated

def run : State → List Char → Outcome
  | state, [] => finish state
  | state, c :: cs =>
    match step state c with
    | .next state => run state cs
    | .last tree => .tree tree cs
    | .before tree => .tree tree (c :: cs)
    | .reject => .unexpected c cs

end Reader

namespace Tree

/-- Read the leading expression of a text. The second component is the text
after it, separators included. -/
def readLeading (text : List Char) : Except ReadError (Tree × List Char) :=
  if text.all isSeparator then .error .empty
  else
    match Reader.run .start text with
    | .tree t rest => .ok (t, rest)
    | .unexpected c rest => .error (.unexpected c (text.length - (rest.length + 1)))
    | .unterminated => .error .unterminated

/-- Read a text that holds one expression and otherwise only separators. -/
def readAll (text : List Char) : Except ReadError Tree :=
  match readLeading text with
  | .ok (t, rest) =>
    match rest.dropWhile isSeparator with
    | [] => .ok t
    | trailing => .error (.trailing (text.length - trailing.length))
  | .error e => .error e

def read (text : String) : Except ReadError Tree :=
  readAll text.toList

end Tree

end TruthTable
