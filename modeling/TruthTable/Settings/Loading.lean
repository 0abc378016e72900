import TruthTable.FileFault
import TruthTable.Json.Codec

/-!
# Settings from a file
-/

namespace TruthTable

/-- Why settings could not be loaded. -/
inductive SettingsError where
  | file (fault : FileFault)
  | malformed
deriving DecidableEq

namespace SettingsError

/-- The error behind it. -/
def inner : SettingsError → String
  | file fault => fault.message
  | malformed => "not the JSON form of settings"

def message (e : SettingsError) : String :=
  match e with
  | file _ => "IO error: " ++ e.inner
  | malformed => "invalid configuration: " ++ e.inner

end SettingsError

namespace Settings

def atPath (textAt : TextAt) (path : String) : Except SettingsError Settings :=
  match textAt path with
  | .error fault => .error (.file fault)
  | .ok text =>
    match ofJsonText? text with
    | some s => .ok s
    | none => .error .malformed

end Settings

end TruthTable
