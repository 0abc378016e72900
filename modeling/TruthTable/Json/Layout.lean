/-!
# Writing JSON

Objects and arrays are written from parts that are already written: on one line
without blanks, or spread over lines with two blanks for each level.
-/

namespace TruthTable.Json

/-- A digit of a four-digit escape. -/
def hexDigit (n : Nat) : Char :=
  if n < 10 then Char.ofNat ('0'.toNat + n) else Char.ofNat ('a'.toNat + (n - 10))

/-- A character inside quotes. Only quotes, backslashes and control characters
are escaped. -/
def escape (c : Char) : List Char :=
  match c with
  | '"' => ['\\', '"']
  | '\\' => ['\\', '\\']
  | '\x08' => ['\\', 'b']
  | '\x0c' => ['\\', 'f']
  | '\n' => ['\\', 'n']
  | '\r' => ['\\', 'r']
  | '\t' => ['\\', 't']
  | c =>
    if c.toNat < 0x20 then ['\\', 'u', '0', '0', hexDigit (c.toNat / 16), hexDigit (c.toNat % 16)]
    else [c]

def quoted (text : String) : String :=
  "\"" ++ String.ofList (text.toList.flatMap escape) ++ "\""

/-- An object on one line; the values are already written. -/
def compactObject (members : List (String × String)) : String :=
  "\x7b" ++ ",".intercalate (members.map fun p => quoted p.1 ++ ":" ++ p.2) ++ "\x7d"

def indent (level : Nat) : String :=
  String.ofList (List.replicate (2 * level) ' ')

/-- A container at a level, each part on a line of its own one level deeper. -/
def spread (level : Nat) (opening closing : String) : List String → String
  | [] => opening ++ closing
  | parts =>
    opening ++ "\n" ++ ",\n".intercalate (parts.map (indent (level + 1) ++ ·)) ++ "\n" ++
      indent level ++ closing

def spreadArray (level : Nat) (items : List String) : String :=
  spread level "[" "]" items

def spreadObject (level : Nat) (members : List (String × String)) : String :=
  spread level "\x7b" "\x7d" (members.map fun p => quoted p.1 ++ ": " ++ p.2)

end TruthTable.Json
