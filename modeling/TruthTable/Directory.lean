import TruthTable.Association
import TruthTable.FileFault

/-!
# A directory among files

Files stand in a tree of directories, and one of these is the directory in use.
A path is followed name by name, from the root if it starts with a slash and from
the directory in use otherwise. There are no links, and nothing lies below a file.
-/

namespace TruthTable

/-- The names that lead from the root to a file or to a directory. -/
structure Location where
  names : List String
deriving DecidableEq

namespace Location

def root : Location :=
  ⟨[]⟩

def child (l : Location) (name : String) : Location :=
  ⟨l.names ++ [name]⟩

/-- The directory that holds a location; the root is above itself. -/
def parent (l : Location) : Location :=
  ⟨l.names.dropLast⟩

end Location

/-- The directory in use, with all files and directories around it. -/
structure Directory where
  /-- The contents of all files. -/
  tree : List (Location × ByteArray)
  nodup : (tree.map Prod.fst).Nodup
  /-- The directories below the root. -/
  folders : List Location
  here : Location

namespace Directory

/-- A directory without files. Its own name is empty, and no path spells an empty
name, so none leads back into it from the root. -/
def empty : Directory :=
  ⟨[], List.nodup_nil, [Location.root.child ""], Location.root.child ""⟩

/-- Give a file a new content, or make a new file. -/
def put (d : Directory) (location : Location) (content : ByteArray) : Directory :=
  { d with
    tree := Association.put location content d.tree
    nodup := Association.nodup_keys_put location content d.nodup }

/-- The files are made one after another in the directory in use, so of two with
one name the later one stays. -/
def ofList (files : List (String × ByteArray)) : Directory :=
  files.foldl (fun d p => d.put (d.here.child p.1) p.2) empty

def contentAt? (d : Directory) (location : Location) : Option ByteArray :=
  d.tree.lookup location

@[simp]
theorem contentAt?_put (d : Directory) (location other : Location) (content : ByteArray) :
    (d.put location content).contentAt? other =
      if other = location then some content else d.contentAt? other :=
  Association.lookup_put location other content d.tree

/-- The content of a file of the directory in use. -/
def content? (d : Directory) (name : String) : Option ByteArray :=
  d.contentAt? (d.here.child name)

/-- The files of the directory in use. -/
def files (d : Directory) : List (String × ByteArray) :=
  d.tree.filterMap fun p =>
    if p.1.parent = d.here then p.1.names.getLast?.map fun name => (name, p.2) else none

/-- Where a path leads. -/
inductive Place where
  | folder (location : Location)
  | file (location : Location)
  /-- A name in a directory that neither a file nor a directory has. -/
  | vacant (location : Location)
deriving DecidableEq

/-- What stands at a location below the root. -/
def place (d : Directory) (location : Location) : Place :=
  if location ∈ d.folders then .folder location
  else if (d.contentAt? location).isSome then .file location
  else .vacant location

/-- Follow the parts of a path. Nothing lies below a file or a vacant name. -/
def follow (d : Directory) : Place → List String → Except FileFault Place
  | place, [] => .ok place
  | .folder location, part :: rest =>
    if part == "." then d.follow (.folder location) rest
    else if part == ".." then d.follow (.folder location.parent) rest
    else d.follow (d.place (location.child part)) rest
  | .file _, _ :: _ => .error .notDirectory
  | .vacant _, _ :: _ => .error .notFound

/-- A part of a path that has come to its end, held latest character first. An
empty part is left out. -/
def endPart : List Char → List String
  | [] => []
  | part => [String.ofList part.reverse]

/-- Cut a path at its slashes. -/
def partsFrom (part : List Char) : List Char → List String
  | [] => endPart part
  | c :: cs => if c == '/' then endPart part ++ partsFrom [] cs else partsFrom (c :: part) cs

def startsWithSlash (path : String) : Bool :=
  path.toList.head? == some '/'

def endsWithSlash (path : String) : Bool :=
  path.toList.getLast? == some '/'

/-- The place of a path; no path is empty. -/
def locate (d : Directory) (path : String) : Except FileFault Place :=
  if path.isEmpty then .error .notFound
  else d.follow (.folder (if startsWithSlash path then .root else d.here)) (partsFrom [] path.toList)

/-- The text at a path. A file is not a directory, so no slash may follow its
name. -/
def textAt (d : Directory) : TextAt := fun path =>
  match d.locate path with
  | .error fault => .error fault
  | .ok (.folder _) => .error .isDirectory
  | .ok (.vacant _) => .error .notFound
  | .ok (.file location) =>
    if endsWithSlash path then .error .notDirectory
    else
      match (d.contentAt? location).bind String.fromUTF8? with
      | some text => .ok text
      | none => .error .notText

/-- Write a text at a location that a path leads to. A slash after the last name
asks for a directory, whatever stands there, and no text can be written to one. -/
def writeAt (d : Directory) (path : String) (location : Location) (text : String) :
    Except FileFault Directory :=
  if endsWithSlash path then .error .isDirectory else .ok (d.put location text.toUTF8)

/-- Write a text at a path; a vacant name becomes a file. -/
def write (d : Directory) (path : String) (text : String) : Except FileFault Directory :=
  match d.locate path with
  | .error fault => .error fault
  | .ok (.folder _) => .error .isDirectory
  | .ok (.file location) => d.writeAt path location text
  | .ok (.vacant location) => d.writeAt path location text

end Directory

end TruthTable
