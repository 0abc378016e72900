/-!
# JSON tokens

A JSON text is first cut into tokens, in one pass over its characters. Names of
constants and numbers are cut at the first character that cannot belong to
either and are then compared with the grammar. A string may hold escapes that
name one half of a surrogate pair without the other; such a string is valid but
denotes no text.
-/

namespace TruthTable.Json

/-- A piece of a string: a character, or the code of one half of a surrogate
pair. -/
inductive Piece where
  | char (c : Char)
  | lead (code : Nat)
  | trail (code : Nat)
deriving DecidableEq

/-- The piece that a four-digit escape names. -/
def Piece.ofCode (code : Nat) : Piece :=
  if 0xD800 ≤ code ∧ code < 0xDC00 then .lead code
  else if 0xDC00 ≤ code ∧ code < 0xE000 then .trail code
  else .char (Char.ofNat code)

/-- Join the halves of surrogate pairs. A half that stands alone gives no
text. -/
def joinPieces : List Piece → Option (List Char)
  | [] => some []
  | .char c :: rest => (joinPieces rest).map (c :: ·)
  | .lead a :: .trail b :: rest =>
    let c := Char.ofNat (0x10000 + (a - 0xD800) * 0x400 + (b - 0xDC00))
    (joinPieces rest).map (c :: ·)
  | .lead _ :: _ => none
  | .trail _ :: _ => none

inductive Token where
  | openBrace
  | closeBrace
  | openBracket
  | closeBracket
  | comma
  | colon
  | null
  | bool (value : Bool)
  | number (literal : String)
  /-- The text of a string, if it denotes one. -/
  | string (text : Option String)
deriving DecidableEq

def isBlank (c : Char) : Bool :=
  c == ' ' || c == '\t' || c == '\n' || c == '\r'

/-- The characters of numbers and of the names of constants. -/
def isBareChar (c : Char) : Bool :=
  c.isAlphanum || c == '+' || c == '-' || c == '.'

def punctuation? : Char → Option Token
  | '{' => some .openBrace
  | '}' => some .closeBrace
  | '[' => some .openBracket
  | ']' => some .closeBracket
  | ',' => some .comma
  | ':' => some .colon
  | _ => none

/-- One digit or more, and nothing else. -/
def isDigits (cs : List Char) : Bool :=
  !cs.isEmpty && cs.all Char.isDigit

/-- The exponent of a number, if there is one: a mark, a sign or none, digits. -/
def isExponent : List Char → Bool
  | [] => true
  | mark :: cs =>
    (mark == 'e' || mark == 'E') &&
      match cs with
      | '+' :: ds => isDigits ds
      | '-' :: ds => isDigits ds
      | ds => isDigits ds

/-- What may follow the whole part of a number: a fraction and an exponent. -/
def isFraction : List Char → Bool
  | '.' :: cs => isDigits (cs.takeWhile Char.isDigit) && isExponent (cs.dropWhile Char.isDigit)
  | cs => isExponent cs

/-- A number without its sign: no zero stands before another digit. -/
def isUnsigned : List Char → Bool
  | '0' :: cs => isFraction cs
  | cs => isDigits (cs.takeWhile Char.isDigit) && isFraction (cs.dropWhile Char.isDigit)

def isNumber : List Char → Bool
  | '-' :: cs => isUnsigned cs
  | cs => isUnsigned cs

/-- A constant or a number. -/
def bare? (word : List Char) : Option Token :=
  if word = ['n', 'u', 'l', 'l'] then some .null
  else if word = ['t', 'r', 'u', 'e'] then some (.bool true)
  else if word = ['f', 'a', 'l', 's', 'e'] then some (.bool false)
  else if isNumber word then some (.number (String.ofList word))
  else none

/-- The character that a backslash and a letter stand for. -/
def escaped? : Char → Option Char
  | '"' => some '"'
  | '\\' => some '\\'
  | '/' => some '/'
  | 'b' => some '\x08'
  | 'f' => some '\x0c'
  | 'n' => some '\n'
  | 'r' => some '\r'
  | 't' => some '\t'
  | _ => none

def hexValue? (c : Char) : Option Nat :=
  if c.isDigit then some (c.toNat - '0'.toNat)
  else if 'a' ≤ c ∧ c ≤ 'f' then some (c.toNat - 'a'.toNat + 10)
  else if 'A' ≤ c ∧ c ≤ 'F' then some (c.toNat - 'A'.toNat + 10)
  else none

/-- Where the cut stands. Words and strings under way are held latest piece
first; `bare []` is the place between tokens. -/
inductive Mode where
  | bare (word : List Char)
  | string (pieces : List Piece)
  | escape (pieces : List Piece)
  /-- Inside a four-digit escape: the code so far and the digits still to come,
  less one. -/
  | hex (pieces : List Piece) (code : Nat) (left : Nat)

/-- The tokens of a word that has come to its end: none for the empty word. -/
def flush : List Char → Option (List Token)
  | [] => some []
  | word => (bare? word.reverse).map ([·])

/-- The token of a string that has come to its end. -/
def stringToken (pieces : List Piece) : Token :=
  .string ((joinPieces pieces.reverse).map String.ofList)

/-- Cut a text into tokens, from a given mode on. -/
def tokensFrom : Mode → List Char → Option (List Token)
  | .bare word, [] => flush word
  | _, [] => none
  | .bare word, c :: cs =>
    if isBareChar c then tokensFrom (.bare (c :: word)) cs
    else do
      let before ← flush word
      if isBlank c then return before ++ (← tokensFrom (.bare []) cs)
      else if c == '"' then return before ++ (← tokensFrom (.string []) cs)
      else
        let mark ← punctuation? c
        return before ++ mark :: (← tokensFrom (.bare []) cs)
  | .string pieces, c :: cs =>
    if c == '"' then (tokensFrom (.bare []) cs).map (stringToken pieces :: ·)
    else if c == '\\' then tokensFrom (.escape pieces) cs
    else if c.toNat < 0x20 then none
    else tokensFrom (.string (.char c :: pieces)) cs
  | .escape pieces, c :: cs =>
    if c == 'u' then tokensFrom (.hex pieces 0 3) cs
    else
      match escaped? c with
      | some d => tokensFrom (.string (.char d :: pieces)) cs
      | none => none
  | .hex pieces code left, c :: cs =>
    match hexValue? c, left with
    | some d, 0 => tokensFrom (.string (.ofCode (code * 16 + d) :: pieces)) cs
    | some d, left + 1 => tokensFrom (.hex pieces (code * 16 + d) left) cs
    | none, _ => none

def tokens? (text : List Char) : Option (List Token) :=
  tokensFrom (.bare []) text

end TruthTable.Json
