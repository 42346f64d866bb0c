import UseImports.Check
import UseImports.Config.Files

/-!
# The command line

The command line checks the files it is given, one after the other, and mends them on request.
Without files the program serves an editor.

Main definitions:
* `Arguments`, `Arguments.parse`: what the command line asks for.
* `checkPaths`: checks files in turn.
* `runCheck` (`run_check`): a whole run with its output and exit code.
-/

namespace UseImports

/-! ## Arguments -/

/-- What the command line asks for. -/
structure Arguments where
  /-- The files to check; with none, an editor is served. -/
  check : List String := []
  fix : Bool := false
  sort : Bool := false
deriving DecidableEq, Repr, Inhabited

/-- Why the arguments are refused. -/
inductive ArgumentError where
  | unexpected (argument : String)
  | missingValue (option : String)
  | unexpectedValue (option : String)
  | repeated (option : String)
  | requires (option needed : String)
deriving DecidableEq, Repr

/-- The wording of an error. -/
def ArgumentError.message : ArgumentError → String
  | unexpected argument => "unexpected argument: " ++ argument
  | missingValue option => "a value is required for " ++ option
  | unexpectedValue option => "no value is expected for " ++ option
  | repeated option => option ++ " is given more than once"
  | requires option needed => option ++ " requires " ++ needed

/-- What to do after reading the arguments. -/
inductive Request where
  | run (arguments : Arguments)
  | help
  | version
deriving DecidableEq, Repr

/-- The argument looks like an option; a single dash does not. -/
def isOption (argument : String) : Bool :=
  argument.toList.head? == some '-' && argument != "-"

/-- The name of an option, and the value behind its equals sign if there is one. -/
def optionParts (argument : String) : String × Option String :=
  let cs := argument.toList
  match cs.dropWhile (· ≠ '=') with
  | _ :: value => (String.ofList (cs.takeWhile (· ≠ '=')), some (String.ofList value))
  | [] => (argument, none)

/-- Whether the reader collects the files of `--check`. -/
inductive Collecting where
  | no
  /-- The option stands behind which no file has come yet. -/
  | first
  | more
deriving DecidableEq, Repr

/-- Reads the arguments one by one. -/
def Arguments.readFrom (a : Arguments) (collecting : Collecting) :
    List String → Except ArgumentError Request
  | [] => if collecting = .first then .error (.missingValue "--check") else .ok (.run a)
  | argument :: rest =>
    if !isOption argument then
      if collecting = .no then .error (.unexpected argument)
      else if argument.isEmpty then .error (.missingValue "--check")
      else Arguments.readFrom { a with check := a.check ++ [argument] } .more rest
    else if collecting = .first then .error (.missingValue "--check")
    else if argument = "--" then
      match rest with
      | [] => .ok (.run a)
      | other :: _ => .error (.unexpected other)
    else
      match optionParts argument with
      | ("--check", none) => Arguments.readFrom a .first rest
      | ("--check", some value) =>
        if value.isEmpty then .error (.missingValue "--check")
        else Arguments.readFrom { a with check := a.check ++ [value] } .no rest
      | ("--fix", none) =>
        if a.fix then .error (.repeated "--fix")
        else Arguments.readFrom { a with fix := true } .no rest
      | ("--sort", none) =>
        if a.sort then .error (.repeated "--sort")
        else Arguments.readFrom { a with sort := true } .no rest
      | ("--help", none) => .ok .help
      | ("--version", none) => .ok .version
      | (name, some _) =>
        if name = "--fix" || name = "--sort" || name = "--help" || name = "--version" then
          .error (.unexpectedValue name)
        else .error (.unexpected argument)
      | (_, none) =>
        if "-h".toList.isPrefixOf argument.toList then .ok .help
        else if "-V".toList.isPrefixOf argument.toList then .ok .version
        else .error (.unexpected argument)

/-- Reads the arguments. Mending needs files, and sorting needs mending. -/
def Arguments.parse (arguments : List String) : Except ArgumentError Request := do
  match ← Arguments.readFrom {} .no arguments with
  | .run a =>
    if a.fix && a.check.isEmpty then throw (.requires "--fix" "--check")
    else if a.sort && !a.fix then throw (.requires "--sort" "--fix")
    else return .run a
  | other => return other

/-! ## Runs -/

/-- What checking files has come to so far. -/
structure CheckRun where
  /-- The lines of the standard output. -/
  output : List String := []
  /-- The lines of the standard error. -/
  errors : List String := []
  tree : FileTree

/-- Checks one more file. -/
def CheckRun.add (r : CheckRun) (cwd : TreePath) (c : Config) (fix : FixOptions) (path : String) :
    Except MaskError CheckRun := do
  match ← checkFile r.tree cwd path c fix with
  | .error e => return { r with errors := r.errors ++ [path ++ ": " ++ e.message] }
  | .ok (report, tree) =>
    let errors := report.error.toList.map fun e => path ++ ": " ++ e.message
    return ⟨r.output ++ report.findings, r.errors ++ errors, tree⟩

/-- Checks files in turn. -/
def checkPaths (t : FileTree) (cwd : TreePath) (c : Config) (fix : FixOptions)
    (paths : List String) :
    Except MaskError CheckRun :=
  paths.foldlM (fun r path => r.add cwd c fix path) { tree := t }

/-- The exit code of a run: two if anything failed, one if anything was found, and else zero. -/
def CheckRun.exitCode (r : CheckRun) : Nat :=
  if !r.errors.isEmpty then 2 else if !r.output.isEmpty then 1 else 0

/-- Checks the files of the arguments with the settings of the user and of the working directory
(`run_check`). -/
def runCheck (t : FileTree) (user : Option Content) (cwd : TreePath) (a : Arguments) :
    Except MaskError CheckRun :=
  checkPaths t cwd (loadConfig t user (some cwd)) ⟨a.fix, a.sort⟩ a.check

end UseImports
