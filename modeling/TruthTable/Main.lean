import TruthTable.CommandLine.Run

/-!
# The command line program

The outermost layer: it looks up the files that a command names, and writes and
prints what the command answers.
-/

namespace TruthTable.Main

/-- A fault by the number and the text that the operating system gives it. Some
calls report the number negated, as a word. -/
def faultOfCode (code : UInt32) (text : String) : FileFault :=
  let number := if code.toNat < 1 <<< 31 then code.toNat else 1 <<< 32 - code.toNat
  match number with
  | 2 => .notFound
  | 20 => .notDirectory
  | 21 => .isDirectory
  | _ => .other number text

def faultOf : IO.Error → FileFault
  | .alreadyExists _ code text => faultOfCode code text
  | .otherError code text => faultOfCode code text
  | .resourceBusy code text => faultOfCode code text
  | .resourceVanished code text => faultOfCode code text
  | .unsupportedOperation code text => faultOfCode code text
  | .hardwareFault code text => faultOfCode code text
  | .unsatisfiedConstraints code text => faultOfCode code text
  | .illegalOperation code text => faultOfCode code text
  | .protocolError code text => faultOfCode code text
  | .timeExpired code text => faultOfCode code text
  | .interrupted _ code text => faultOfCode code text
  | .noFileOrDirectory _ code text => faultOfCode code text
  | .invalidArgument _ code text => faultOfCode code text
  | .permissionDenied _ code text => faultOfCode code text
  | .resourceExhausted _ code text => faultOfCode code text
  | .inappropriateType _ code text => faultOfCode code text
  | .noSuchThing _ code text => faultOfCode code text
  | .unexpectedEof => .notText
  | .userError text => .other 5 text

def readText (path : String) : IO (Except FileFault String) := do
  match ← (IO.FS.readBinFile path).toBaseIO with
  | .ok bytes =>
    match String.fromUTF8? bytes with
    | some text => return .ok text
    | none => return .error .notText
  | .error e => return .error (faultOf e)

/-- Look up the files at the given paths. -/
def readAll (paths : List String) : IO TextAt := do
  let found ← paths.mapM fun path => return (path, ← readText path)
  return fun path => (found.lookup path).getD (.error .notFound)

def fail (f : Failure) : IO UInt32 := do
  IO.eprint f.report
  return 1

def check (i : Invocation) : IO UInt32 := do
  let textAt ← readAll (i.config.toList ++ i.knowledgeBase ++ [i.statement])
  match i.problem textAt with
  | .error f => fail f
  | .ok problem =>
    let start ← IO.monoNanosNow
    match ← IO.lazyPure fun _ => problem.check with
    | .error f => fail f
    | .ok report =>
      let stop ← IO.monoNanosNow
      match ← (IO.FS.writeFile i.output (Invocation.written report)).toBaseIO with
      | .error e => fail (.unwritable i.output (faultOf e))
      | .ok () =>
        IO.print (i.printed report (stop - start))
        return 0

end TruthTable.Main

def main (arguments : List String) : IO UInt32 := do
  match TruthTable.Request.ofArguments arguments with
  | .help => IO.print TruthTable.Run.helpText; return 0
  | .version => IO.print TruthTable.Run.versionText; return 0
  | .misuse e => IO.eprint (TruthTable.Run.misuseText e); return 2
  | .check i => TruthTable.Main.check i
