/-!
# Faults of files

Why the text at a path could not be read, or none could be written there.
-/

namespace TruthTable

inductive FileFault where
  | notFound
  | notDirectory
  | isDirectory
  /-- The bytes are not UTF-8. -/
  | notText
  /-- Any other fault, as the operating system numbers and describes it. -/
  | other (code : Nat) (description : String)
deriving DecidableEq

namespace FileFault

def systemText (code : Nat) (description : String) : String :=
  description ++ " (os error " ++ toString code ++ ")"

def message : FileFault → String
  | notFound => systemText 2 "No such file or directory"
  | notDirectory => systemText 20 "Not a directory"
  | isDirectory => systemText 21 "Is a directory"
  | notText => "stream did not contain valid UTF-8"
  | other code description => systemText code description

end FileFault

/-- A way to look up the text at a path. -/
abbrev TextAt := String → Except FileFault String

end TruthTable
