import TruthTable.Json.Layout
import TruthTable.Json.Value
import TruthTable.Report

/-!
# The JSON forms of the library's values

A symbol is a string, a model an object from symbols to truth values in binding
order, and the settings an object with one field for each. Connectives and
verdicts are strings; on reading, an object that maps the name to null will do
as well.
-/

namespace TruthTable

namespace Json

/-- A name, as a string or as the one key of an object whose value is null. -/
def name? : Json → Option String
  | string text => text
  | object [(key, null)] => key
  | _ => none

/-- A field that is a truth value. It is true where it is missing, and may be
given only once. -/
def flag? (members : List (Option String × Json)) (field : String) : Option Bool :=
  match members.filter fun p => p.1 == some field with
  | [] => some true
  | [(_, bool b)] => some b
  | _ => none

end Json

namespace Symbol

def json (s : Symbol) : String :=
  Json.quoted s.name

def ofJson? : Json → Option Symbol
  | .string (some name) => ofName? name
  | _ => none

end Symbol

namespace Connective

def json (c : Connective) : String :=
  Json.quoted c.keyword

def ofJson? (j : Json) : Option Connective :=
  j.name?.bind ofKeyword?

end Connective

namespace Verdict

def json (v : Verdict) : String :=
  Json.quoted v.render

def ofJson? (j : Json) : Option Verdict :=
  j.name?.bind ofText?

end Verdict

namespace Model

def json (m : Model) : String :=
  Json.compactObject (m.bindings.map fun p => (p.1.name, boolText p.2))

/-- One member of an object as a binding. -/
def binding? : Option String × Json → Option (Symbol × Bool)
  | (some name, .bool b) => (Symbol.ofName? name).map fun s => (s, b)
  | _ => none

/-- The members are bound in order, so a repeated key takes the later value at
its first place. -/
def ofJson? : Json → Option Model
  | .object members => (members.mapM binding?).map ofList
  | _ => none

def ofJsonText? (text : String) : Option Model :=
  (Json.read? text).bind ofJson?

end Model

namespace Settings

def json (s : Settings) : String :=
  Json.compactObject
    [("literal_forcing", boolText s.literalForcing), ("short_circuit", boolText s.shortCircuit)]

/-- Settings are an object, whose other fields mean nothing, or a list of up to
two truth values. Whatever is missing is true. -/
def ofJson? : Json → Option Settings
  | .object members =>
    if members.any fun p => p.1.isNone then none
    else do
      let literalForcing ← Json.flag? members "literal_forcing"
      let shortCircuit ← Json.flag? members "short_circuit"
      return ⟨literalForcing, shortCircuit⟩
  | .array [] => some {}
  | .array [.bool a] => some ⟨a, true⟩
  | .array [.bool a, .bool b] => some ⟨a, b⟩
  | _ => none

def ofJsonText? (text : String) : Option Settings :=
  (Json.read? text).bind ofJson?

end Settings

/-- A number of nanoseconds in seconds, with as many decimals as it needs and
at least one. -/
def secondsText (nanoseconds : Nat) : String :=
  let decimals := (toString (1000000000 + nanoseconds % 1000000000)).toList.drop 1
  let trimmed := (decimals.reverse.dropWhile (· == '0')).reverse
  toString (nanoseconds / 1000000000) ++ "." ++
    (if trimmed.isEmpty then "0" else String.ofList trimmed)

namespace Report

/-- The report over several lines, with the time that the check took. -/
def json (r : Report) (nanoseconds : Nat) : String :=
  Json.spreadObject 0
    [("verdict", r.verdict.json),
      ("statement_entailed", boolText r.statementEntailed),
      ("negation_entailed", boolText r.negationEntailed),
      ("free_symbols", Json.spreadArray 1 (r.plan.free.map Symbol.json)),
      ("forced", Json.spreadObject 1
        (r.plan.forced.bindings.map fun p => (p.1.name, boolText p.2))),
      ("models_checked", toString r.modelsChecked),
      ("elapsed", secondsText nanoseconds)]

end Report

end TruthTable
