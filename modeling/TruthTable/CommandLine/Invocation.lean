/-!
# Arguments of the command line

Arguments are read from left to right. An option that names a path takes what is
attached to it, or else the argument after it; a flag takes nothing; every other
argument is a knowledge base file. Options and files may be mixed, and a double
dash makes files of all arguments after it. No option may be given twice, and no
path may be empty.
-/

namespace TruthTable

/-- The options that name a path. -/
inductive PathOption where
  | statement
  | output
  | config
deriving DecidableEq

namespace PathOption

def name : PathOption → String
  | statement => "--statement"
  | output => "--output"
  | config => "--config"

end PathOption

/-- The options that are given or not. -/
inductive Flag where
  | noLiteralForcing
  | exhaustive
  | json
  | verbose
deriving DecidableEq

namespace Flag

def name : Flag → String
  | noLiteralForcing => "--no-literal-forcing"
  | exhaustive => "--exhaustive"
  | json => "--json"
  | verbose => "--verbose"

end Flag

/-- What the name of an option stands for. -/
inductive Switch where
  | path (option : PathOption)
  | flag (flag : Flag)
  | help
  | version
deriving DecidableEq

namespace Switch

/-- An option by its long name, which may not be shortened. -/
def ofLong? : String → Option Switch
  | "statement" => some (path .statement)
  | "output" => some (path .output)
  | "config" => some (path .config)
  | "no-literal-forcing" => some (flag .noLiteralForcing)
  | "exhaustive" => some (flag .exhaustive)
  | "json" => some (flag .json)
  | "verbose" => some (flag .verbose)
  | "help" => some help
  | "version" => some version
  | _ => none

/-- An option by its letter. -/
def ofLetter? : Char → Option Switch
  | 's' => some (path .statement)
  | 'o' => some (path .output)
  | 'v' => some (flag .verbose)
  | 'h' => some help
  | 'V' => some version
  | _ => none

end Switch

inductive UsageError where
  | unknownOption (name : String)
  | missingValue (option : PathOption)
  | unexpectedValue (name : String)
  | emptyPath
  | repeated (name : String)
  | missingStatement
  | missingKnowledgeBase
deriving DecidableEq

namespace UsageError

def message : UsageError → String
  | unknownOption name => "unknown option " ++ name
  | missingValue option => "a value is required for " ++ option.name
  | unexpectedValue name => name ++ " takes no value"
  | emptyPath => "a path must not be empty"
  | repeated name => name ++ " cannot be given more than once"
  | missingStatement => "a statement file is required"
  | missingKnowledgeBase => "a knowledge base file is required"

end UsageError

/-- A command to check a statement. -/
structure Invocation where
  knowledgeBase : List String
  statement : String
  output : String
  config : Option String
  noLiteralForcing : Bool
  exhaustive : Bool
  json : Bool
  /-- Asks for a more talkative log; no answer depends on it. -/
  verbose : Bool
deriving DecidableEq

/-- What the arguments ask for. -/
inductive Request where
  | check (invocation : Invocation)
  | help
  | version
  | misuse (error : UsageError)
deriving DecidableEq

namespace Request

/-- What has been given so far. -/
structure Draft where
  paths : List (PathOption × String) := []
  flags : List Flag := []
  files : List String := []

namespace Draft

def addPath (d : Draft) (option : PathOption) (path : String) : Except Request Draft :=
  if path.isEmpty then .error (.misuse .emptyPath)
  else if (d.paths.lookup option).isSome then .error (.misuse (.repeated option.name))
  else .ok { d with paths := (option, path) :: d.paths }

def addFlag (d : Draft) (flag : Flag) : Except Request Draft :=
  if flag ∈ d.flags then .error (.misuse (.repeated flag.name))
  else .ok { d with flags := flag :: d.flags }

def addFile (d : Draft) (path : String) : Except Request Draft :=
  if path.isEmpty then .error (.misuse .emptyPath)
  else .ok { d with files := d.files ++ [path] }

/-- A long option with the value attached to it, if there is one. An option that
still needs a value is handed back. -/
def addLong (d : Draft) (name : String) (value : Option String) :
    Except Request (Draft × Option PathOption) :=
  match Switch.ofLong? name, value with
  | none, _ => .error (.misuse (.unknownOption name))
  | some (.path option), none => .ok (d, some option)
  | some (.path option), some path => (d.addPath option path).map (·, none)
  | some (.flag flag), none => (d.addFlag flag).map (·, none)
  | some .help, none => .error .help
  | some .version, none => .error .version
  | some _, some _ => .error (.misuse (.unexpectedValue name))

/-- Letters after a single dash: flags, and at last perhaps an option that names
a path, whose value may follow at once or after an equals sign. -/
def addLetters (d : Draft) : List Char → Except Request (Draft × Option PathOption)
  | [] => .ok (d, none)
  | letter :: rest =>
    match Switch.ofLetter? letter with
    | none => .error (.misuse (.unknownOption letter.toString))
    | some .help => .error .help
    | some .version => .error .version
    | some (.flag flag) =>
      match d.addFlag flag with
      | .ok d => d.addLetters rest
      | .error r => .error r
    | some (.path option) =>
      match rest with
      | [] => .ok (d, some option)
      | '=' :: path => (d.addPath option (String.ofList path)).map (·, none)
      | path => (d.addPath option (String.ofList path)).map (·, none)

/-- A long option is cut at its first equals sign. -/
def addLongText (d : Draft) (text : List Char) : Except Request (Draft × Option PathOption) :=
  let name := String.ofList (text.takeWhile (· != '='))
  match text.dropWhile (· != '=') with
  | [] => d.addLong name none
  | _ :: value => d.addLong name (some (String.ofList value))

/-- One argument that is not the value of the option before it. -/
def add (d : Draft) (argument : String) : Except Request (Draft × Option PathOption) :=
  match argument.toList with
  | '-' :: '-' :: text => d.addLongText text
  | '-' :: letter :: letters => d.addLetters (letter :: letters)
  | _ => (d.addFile argument).map (·, none)

/-- Whether an argument cannot be the value of an option: it starts with a dash
and is not a dash alone. -/
def isOption (argument : String) : Bool :=
  match argument.toList with
  | '-' :: _ :: _ => true
  | _ => false

/-- Read arguments from left to right; an option may be waiting for its value. -/
def addAll (d : Draft) : Option PathOption → List String → Except Request Draft
  | none, [] => .ok d
  | some option, [] => .error (.misuse (.missingValue option))
  | some option, argument :: rest =>
    if isOption argument then .error (.misuse (.missingValue option))
    else
      match d.addPath option argument with
      | .ok d => d.addAll none rest
      | .error r => .error r
  | none, argument :: rest =>
    if argument == "--" then rest.foldlM addFile d
    else
      match d.add argument with
      | .ok (d, waiting) => d.addAll waiting rest
      | .error r => .error r

/-- The command, once all arguments have been read. -/
def complete (d : Draft) : Request :=
  match d.paths.lookup .statement, d.files with
  | none, _ => .misuse .missingStatement
  | _, [] => .misuse .missingKnowledgeBase
  | some statement, files =>
    .check {
      knowledgeBase := files
      statement
      output := (d.paths.lookup .output).getD "result.txt"
      config := d.paths.lookup .config
      noLiteralForcing := d.flags.contains .noLiteralForcing
      exhaustive := d.flags.contains .exhaustive
      json := d.flags.contains .json
      verbose := d.flags.contains .verbose }

end Draft

def ofArguments (arguments : List String) : Request :=
  match Draft.addAll {} none arguments with
  | .ok d => d.complete
  | .error r => r

end Request

end TruthTable
