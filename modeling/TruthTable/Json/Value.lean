import TruthTable.Json.Token

/-!
# JSON values

Objects keep their members in order, repeated keys included. Values are built
from tokens with a stack of the containers that are still open, so no depth of
nesting is refused.
-/

namespace TruthTable

/-- A JSON value. The text of a string or of a key is `none` where it holds one
half of a surrogate pair without the other. -/
inductive Json where
  | null
  | bool (value : Bool)
  | number (literal : String)
  | string (text : Option String)
  | array (items : List Json)
  | object (members : List (Option String × Json))

namespace Json

/-- A container that is still open, with its contents so far, latest first. -/
inductive Frame where
  | array (items : List Json)
  | object (members : List (Option String × Json)) (key : Option String)

/-- What has been read, and hence what may come next. -/
inductive State where
  /-- A value must come. -/
  | value (outer : List Frame)
  /-- An array has been opened. -/
  | firstItem (outer : List Frame)
  /-- An object has been opened. -/
  | firstKey (outer : List Frame)
  /-- Another member of an object must come. -/
  | key (members : List (Option String × Json)) (outer : List Frame)
  /-- A key has been read. -/
  | colon (members : List (Option String × Json)) (key : Option String) (outer : List Frame)
  /-- A value has ended. -/
  | after (value : Json) (outer : List Frame)

/-- The state after the first token of a value. -/
def beginValue (outer : List Frame) : Token → Option State
  | .null => some (.after .null outer)
  | .bool b => some (.after (.bool b) outer)
  | .number literal => some (.after (.number literal) outer)
  | .string text => some (.after (.string text) outer)
  | .openBracket => some (.firstItem outer)
  | .openBrace => some (.firstKey outer)
  | _ => none

def step : State → Token → Option State
  | .value outer, t => beginValue outer t
  | .firstItem outer, .closeBracket => some (.after (.array []) outer)
  | .firstItem outer, t => beginValue (.array [] :: outer) t
  | .firstKey outer, .closeBrace => some (.after (.object []) outer)
  | .firstKey outer, .string k => some (.colon [] k outer)
  | .key members outer, .string k => some (.colon members k outer)
  | .colon members k outer, .colon => some (.value (.object members k :: outer))
  | .after v (.array items :: outer), .comma => some (.value (.array (v :: items) :: outer))
  | .after v (.array items :: outer), .closeBracket =>
    some (.after (.array (v :: items).reverse) outer)
  | .after v (.object members k :: outer), .comma => some (.key ((k, v) :: members) outer)
  | .after v (.object members k :: outer), .closeBrace =>
    some (.after (.object ((k, v) :: members).reverse) outer)
  | _, _ => none

def finish : State → Option Json
  | .after v [] => some v
  | _ => none

/-- The value that a list of tokens spells out, if it spells one. -/
def ofTokens? (tokens : List Token) : Option Json :=
  (tokens.foldlM step (.value [])).bind finish

/-- The value of a JSON text: one value, with blanks around its tokens. -/
def read? (text : String) : Option Json :=
  (tokens? text.toList).bind ofTokens?

end Json

end TruthTable
