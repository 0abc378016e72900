/-!
# Symbols

A word is a non-empty run of ASCII letters, digits and underscores. A symbol is
a name that is a word; the proof travels with the name, so every symbol that
exists can be written down and read back.
-/

namespace TruthTable

/-- The characters that words are made of. -/
def isWordChar (c : Char) : Bool :=
  c.isAlphanum || c == '_'

/-- A word has at least one character, and only word characters. -/
def isWord (name : String) : Bool :=
  !name.toList.isEmpty && name.toList.all isWordChar

/-- A propositional symbol. -/
structure Symbol where
  name : String
  isWord_name : isWord name = true
deriving DecidableEq

namespace Symbol

/-- The symbol of a given name, if the name is a word. -/
def ofName? (name : String) : Option Symbol :=
  if h : isWord name = true then some ⟨name, h⟩ else none

theorem ofName?_name (s : Symbol) : ofName? s.name = some s := by
  simp [ofName?, s.isWord_name]

theorem name_of_ofName? {name : String} {s : Symbol} (h : ofName? name = some s) :
    s.name = name := by
  unfold ofName? at h
  split at h
  · obtain rfl := Option.some.inj h; rfl
  · cases h

theorem ofName?_isSome (name : String) : (ofName? name).isSome = isWord name := by
  unfold ofName?
  split <;> simp_all

/-- Symbols are ordered as their names are, character by character. -/
def le (a b : Symbol) : Bool :=
  decide (a.name ≤ b.name)

/-- The symbols in ascending order; equal ones keep their places. -/
def sort (symbols : List Symbol) : List Symbol :=
  symbols.mergeSort le

end Symbol

end TruthTable
