import TruthTable.Json.Codec
import TruthTable.Proofs.Bindings
import TruthTable.Proofs.JsonText

/-!
# Models as JSON

A model is written as an object with one member for each binding, in binding order, and is
read back as it was. An object may also come from elsewhere, with blanks, with keys that are
spelled by escapes, with one key more than once, and with values of any kind. It is a model
exactly if every key is a word and every value a truth value; the members are then bound in
their order.
-/

namespace TruthTable.Proofs.ModelText

open Bindings JsonText

/-- The member that a binding is written as. -/
def memberOf (p : Symbol × Bool) : Option String × Json :=
  (some p.1.name, .bool p.2)

theorem binding?_eq_some_iff {member : Option String × Json} {p : Symbol × Bool} :
    Model.binding? member = some p ↔ member = memberOf p := by
  constructor
  · intro h
    unfold Model.binding? at h
    split at h
    · obtain ⟨s, hs, hp⟩ := Option.map_eq_some_iff.mp h
      rw [← hp, memberOf, Symbol.name_of_ofName? hs]
    · cases h
  · rintro rfl
    rw [memberOf, Model.binding?, Symbol.ofName?_name]
    rfl

theorem mapM_binding?_eq_some_iff {members : List (Option String × Json)}
    {bs : List (Symbol × Bool)} :
    members.mapM Model.binding? = some bs ↔ members = bs.map memberOf := by
  induction members generalizing bs with
  | nil => cases bs <;> simp
  | cons member members ih =>
    rw [List.mapM_cons]
    simp only [Option.bind_eq_bind, Option.bind_eq_some_iff, Option.pure_def, Option.some.injEq]
    constructor
    · rintro ⟨p, hp, ps, hps, rfl⟩
      rw [binding?_eq_some_iff.mp hp, ih.mp hps, List.map_cons]
    · intro h
      cases bs with
      | nil => cases h
      | cons p bs =>
        obtain ⟨hp, hbs⟩ := List.cons.inj h
        exact ⟨p, binding?_eq_some_iff.mpr hp, bs, ih.mpr hbs, rfl⟩

/-- A key that is a word and a value that is a truth value. -/
def IsBinding (member : Option String × Json) : Prop :=
  (∃ name, member.1 = some name ∧ isWord name = true) ∧ ∃ b, member.2 = .bool b

theorem isBinding_iff {member : Option String × Json} :
    IsBinding member ↔ ∃ p, member = memberOf p := by
  constructor
  · obtain ⟨key, value⟩ := member
    rintro ⟨⟨name, rfl, hname⟩, b, rfl⟩
    exact ⟨(⟨name, hname⟩, b), rfl⟩
  · rintro ⟨p, rfl⟩
    exact ⟨⟨p.1.name, rfl, p.1.isWord_name⟩, p.2, rfl⟩

/-- Members that are all bindings come from a list of bindings. -/
theorem all_isBinding_iff {members : List (Option String × Json)} :
    (∀ member ∈ members, IsBinding member) ↔ ∃ bs, members = List.map memberOf bs := by
  constructor
  · intro h
    induction members with
    | nil => exact ⟨[], rfl⟩
    | cons member members ih =>
      obtain ⟨p, rfl⟩ := isBinding_iff.mp (h member (by simp))
      obtain ⟨bs, rfl⟩ := ih fun other ho => h other (by simp [ho])
      exact ⟨p :: bs, rfl⟩
  · rintro ⟨bs, rfl⟩ member hmember
    obtain ⟨p, -, rfl⟩ := List.mem_map.mp hmember
    exact isBinding_iff.mpr ⟨p, rfl⟩

theorem ofJsonText?_eq_some_iff {members : List (Option String × Json)} {text : String}
    (h : IsText (.object members) text) {m : Model} :
    Model.ofJsonText? text = some m ↔
      ∃ bs, members = List.map memberOf bs ∧ m = Model.ofList bs := by
  rw [Model.ofJsonText?, read?_of_isText h, Option.bind_some, Model.ofJson?,
    Option.map_eq_some_iff]
  simp only [mapM_binding?_eq_some_iff, eq_comm]

theorem written_boolText (b : Bool) : Written (.value (.bool b)) (boolText b).toList := by
  cases b with
  | true => exact .yes
  | false => exact .no

/-- A model is written as an object with a member for each of its bindings. -/
theorem isText_json (m : Model) : IsText (.object (m.bindings.map memberOf)) m.json := by
  apply isText_compactObject (fun p : Symbol × Bool => p.1.name) (fun p => boolText p.2)
    (fun p => .bool p.2)
  intro p _
  exact written_boolText p.2

theorem ofJsonText?_json (m : Model) : Model.ofJsonText? m.json = some m := by
  rw [ofJsonText?_eq_some_iff (isText_json m)]
  exact ⟨m.bindings, rfl, (ofList_bindings m).symm⟩

/-- **Models and JSON.** A model that is written is read back, with its bindings in their
order. Of all texts of an object, however it is spelled, just those are read as a model in
which every key is a word and every value a truth value; the model then binds the members
one after the other, so that a key that comes again takes the later value in its first
place. -/
theorem json_round_trip :
    (∀ m : Model, Model.ofJsonText? m.json = some m) ∧
    ∀ (members : List (Option String × Json)) (text : String), IsText (.object members) text →
      ((∃ m, Model.ofJsonText? text = some m) ↔ ∀ member ∈ members, IsBinding member) ∧
      ∀ bs : List (Symbol × Bool), members = bs.map memberOf →
        Model.ofJsonText? text = some (Model.ofList bs) := by
  refine ⟨ofJsonText?_json, fun members text h => ⟨?_, fun bs hbs => ?_⟩⟩
  · rw [all_isBinding_iff]
    constructor
    · rintro ⟨m, hm⟩
      obtain ⟨bs, hbs, -⟩ := (ofJsonText?_eq_some_iff h).mp hm
      exact ⟨bs, hbs⟩
    · rintro ⟨bs, hbs⟩
      exact ⟨Model.ofList bs, (ofJsonText?_eq_some_iff h).mpr ⟨bs, hbs, rfl⟩⟩
  · exact (ofJsonText?_eq_some_iff h).mpr ⟨bs, hbs, rfl⟩

def icy : Symbol := ⟨"Icy", rfl⟩
def mild : Symbol := ⟨"Mild", rfl⟩

/-- An object with blanks, an escape in a key, and a key that comes again. -/
def repeatedKey : String := "\x7b \"Icy\" : false,\n\"\\u004dild\":true, \"Icy\":true\x7d"

theorem isText_repeatedKey :
    IsText (.object ([(icy, false), (mild, true), (icy, true)].map memberOf)) repeatedKey := by
  have hmild : StringBody [.ofCode 0x4d, .char 'i', .char 'l', .char 'd'] "\\u004dild".toList :=
    .cons (.code '0' '0' '4' 'd' 0 0 4 13 rfl rfl rfl rfl) (stringBody_escape ['i', 'l', 'd'])
  have hicy : StringBody [.char 'I', .char 'c', .char 'y'] "Icy".toList :=
    stringBody_escape ['I', 'c', 'y']
  have hfirst : KeyText (some "Icy") " \"Icy\" ".toList :=
    ⟨[' '], _, [' '], rfl, rfl, ⟨_, _, hicy, rfl, rfl⟩, rfl⟩
  have hsecond : KeyText (some "Mild") "\n\"\\u004dild\"".toList :=
    ⟨['\n'], _, [], rfl, rfl, ⟨_, _, hmild, rfl, rfl⟩, rfl⟩
  have hthird : KeyText (some "Icy") " \"Icy\"".toList :=
    ⟨[' '], _, [], rfl, rfl, ⟨_, _, hicy, rfl, rfl⟩, rfl⟩
  have hblank : [' '].all Json.isBlank = true := rfl
  have hno : Written (.element (.bool false)) " false".toList := .element hblank .no rfl
  have hyes : Written (.element (.bool true)) "true".toList := element_of_value .yes
  have hmembers := Written.member hfirst hno (.member hsecond hyes (.lastMember hthird hyes))
  exact element_of_value (.object hmembers)

theorem json_round_trip_repeatedKey :
    IsText (.object ([(icy, false), (mild, true), (icy, true)].map memberOf)) repeatedKey ∧
      Model.ofJsonText? repeatedKey = some (Model.ofList [(icy, true), (mild, true)]) := by
  have hread := (json_round_trip.2 _ _ isText_repeatedKey).2 _ rfl
  have hplace : Model.ofList [(icy, false), (mild, true), (icy, true)] =
      Model.ofList [(icy, true), (mild, true)] := rfl
  rw [hplace] at hread
  exact ⟨isText_repeatedKey, hread⟩

end TruthTable.Proofs.ModelText
