/-!
# Settings of a check

Neither setting changes a verdict; both change how many models are looked at.
-/

namespace TruthTable

structure Settings where
  /-- Do not enumerate the symbols that the knowledge base states outright. -/
  literalForcing : Bool := true
  /-- Leave out the false branch of a symbol once its true branch has failed. -/
  shortCircuit : Bool := true
deriving DecidableEq

namespace Settings

/-- Enumerate everything. -/
def exhaustive : Settings :=
  ⟨false, false⟩

end Settings

end TruthTable
