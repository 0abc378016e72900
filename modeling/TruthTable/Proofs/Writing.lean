import Mathlib.Tactic.SplitIfs
import TruthTable.Directory

/-!
# Writing to a file

A path at which a text can be written leads to one location, a file or a vacant
name. Writing puts the bytes of the text there and leaves every other file as it
is, and the same path then leads to the file.
-/

namespace TruthTable.Proofs.Writing

open Directory

/-- Some text can be written at the path. -/
def Writable (d : Directory) (path : String) : Prop :=
  ∃ text after, d.write path text = .ok after

/-- A path that leads to a file, or to a name that is free for one. -/
def LeadsTo (d : Directory) (path : String) (location : Location) : Prop :=
  d.locate path = .ok (.file location) ∨ d.locate path = .ok (.vacant location)

/-- The file at the path holds the text, and no other file has changed. -/
structure Written (d after : Directory) (path text : String) : Prop where
  textAt : after.textAt path = .ok text
  folders : after.folders = d.folders
  here : after.here = d.here
  changed : ∃ location, LeadsTo d path location ∧
    after.contentAt? location = some text.toUTF8 ∧
    ∀ other, other ≠ location → after.contentAt? other = d.contentAt? other

theorem write_eq_ok_iff {d after : Directory} {path text : String} :
    d.write path text = .ok after ↔ ∃ location, LeadsTo d path location ∧
      endsWithSlash path = false ∧ after = d.put location text.toUTF8 := by
  have hat : ∀ location, d.writeAt path location text = .ok after ↔
      endsWithSlash path = false ∧ after = d.put location text.toUTF8 := by
    intro location
    rw [writeAt]
    cases endsWithSlash path <;> simp [eq_comm]
  rw [write]
  simp only [LeadsTo]
  cases d.locate path with
  | error fault => simp
  | ok place => cases place <;> simp [hat]

/-- Whether a text can be written at a path does not depend on the text. -/
theorem Writable.write {d : Directory} {path : String} (h : Writable d path) (text : String) :
    ∃ location, LeadsTo d path location ∧ endsWithSlash path = false ∧
      d.write path text = .ok (d.put location text.toUTF8) := by
  obtain ⟨_, _, hw⟩ := h
  obtain ⟨location, hl, hs, -⟩ := write_eq_ok_iff.mp hw
  exact ⟨location, hl, hs, write_eq_ok_iff.mpr ⟨location, hl, hs, rfl⟩⟩

theorem place_put (d : Directory) (location other : Location) (content : ByteArray) :
    (d.put location content).place other =
      if d.place other = .vacant location then .file location else d.place other := by
  have hf : (d.put location content).folders = d.folders := rfl
  rw [place, place, hf, contentAt?_put]
  by_cases hfolder : other ∈ d.folders
  · simp [hfolder]
  · by_cases ho : other = location
    · subst ho
      cases d.contentAt? other <;> simp [hfolder]
    · cases d.contentAt? other <;> simp [hfolder, ho]

/-- Only a directory has anything below it. -/
theorem follow_eq_ok {d : Directory} {start place : Place} {parts : List String}
    (hs : ∀ location, start ≠ .folder location) (h : d.follow start parts = .ok place) :
    place = start ∧ parts = [] := by
  cases parts with
  | nil => cases h; exact ⟨rfl, rfl⟩
  | cons part rest =>
    cases start with
    | folder location => exact absurd rfl (hs location)
    | file location => cases h
    | vacant location => cases h

/-- A path that leads to a location leads to a file there once there is one. -/
theorem follow_put (d : Directory) {location start : Location} (content : ByteArray)
    {parts : List String} {place : Place} (h : d.follow (.folder start) parts = .ok place)
    (hp : place = .file location ∨ place = .vacant location) :
    (d.put location content).follow (.folder start) parts = .ok (.file location) := by
  induction parts generalizing start with
  | nil =>
    cases h
    rcases hp with hp | hp <;> cases hp
  | cons part rest ih =>
    rw [follow] at h ⊢
    split_ifs at h ⊢ with hdot hup
    · exact ih h
    · exact ih h
    · rw [place_put]
      cases hnext : d.place (start.child part) with
      | folder next => rw [hnext] at h; exact ih h
      | file next =>
        rw [hnext] at h
        obtain ⟨rfl, rfl⟩ := follow_eq_ok (fun _ => Place.noConfusion) h
        rcases hp with hp | hp <;> cases hp
        rfl
      | vacant next =>
        rw [hnext] at h
        obtain ⟨rfl, rfl⟩ := follow_eq_ok (fun _ => Place.noConfusion) h
        rcases hp with hp | hp <;> cases hp
        rw [if_pos rfl, follow]

theorem locate_put {d : Directory} {path : String} {location : Location}
    (h : LeadsTo d path location) (content : ByteArray) :
    (d.put location content).locate path = .ok (.file location) := by
  have hplace : ∃ place, d.locate path = .ok place ∧
      (place = .file location ∨ place = .vacant location) := by
    rcases h with h | h
    · exact ⟨_, h, Or.inl rfl⟩
    · exact ⟨_, h, Or.inr rfl⟩
  obtain ⟨place, hlocate, hp⟩ := hplace
  rw [locate] at hlocate ⊢
  split at hlocate
  · cases hlocate
  · rename_i hempty
    rw [if_neg hempty]
    exact follow_put d content hlocate hp

theorem fromUTF8?_toUTF8 (text : String) : String.fromUTF8? text.toUTF8 = some text := by
  rw [String.fromUTF8?, String.toUTF8_eq_toByteArray, dif_pos text.isValidUTF8]
  rfl

theorem textAt_of_locate {d : Directory} {path text : String} (location : Location)
    (hl : d.locate path = .ok (.file location)) (hs : endsWithSlash path = false)
    (hc : d.contentAt? location = some text.toUTF8) : d.textAt path = .ok text := by
  rw [textAt, hl]
  simp only [hs, Bool.false_eq_true, if_false, hc, Option.bind_some, fromUTF8?_toUTF8]

theorem written_put {d : Directory} {path : String} {location : Location}
    (h : LeadsTo d path location) (hs : endsWithSlash path = false) (text : String) :
    Written d (d.put location text.toUTF8) path text := by
  have hself : (d.put location text.toUTF8).contentAt? location = some text.toUTF8 := by
    rw [contentAt?_put, if_pos rfl]
  refine ⟨textAt_of_locate location (locate_put h _) hs hself, rfl, rfl, location, h, hself, ?_⟩
  intro other ho
  rw [contentAt?_put, if_neg ho]

end TruthTable.Proofs.Writing
