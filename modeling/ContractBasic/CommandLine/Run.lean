/-
Runs of a command line.

A run reads the configuration before the input, and writes the code before the mapping; the first
failure ends it.

* `Report` — what a run says
* `Invocation.run` — the run of an invocation on given files
-/
import ContractBasic.CommandLine.Args
import ContractBasic.CommandLine.Files
import ContractBasic.Config
import ContractBasic.Json.Writer
import ContractBasic.Program.Json
import ContractBasic.Program.Read

namespace ContractBasic

/-- Why a run ends early. -/
inductive Failure where
  | reading (path : String) (fault : FileFault)
  | writing (path : String) (fault : FileFault)
  | config (path : String)
  /-- The input is refused; `report` says why. -/
  | source (path report : String)
deriving DecidableEq, Repr

/-- The words for a failure and, indented below them, for its cause. -/
def Failure.message : Failure → String
  | reading path fault => causedBy ("Reading " ++ path) fault.message
  | writing path fault => causedBy ("Writing " ++ path) fault.message
  | config path => "Error: Parsing config " ++ path
  | source path report => causedBy ("Parsing " ++ path) report
where
  /-- A headline and the lines of a cause. -/
  causedBy (head cause : String) : String :=
    let lines := (cause.splitOn "\n").map fun line => "    " ++ line ++ "\n"
    "Error: " ++ head ++ "\n\nCaused by:\n" ++ String.join lines

/-- What a run says: its output, its warnings, and why it ended early. -/
structure Report where
  output : String
  warnings : List String
  failure : Option Failure
deriving DecidableEq, Repr

namespace Report

/-- A run that has said nothing yet. -/
def silent : Report := ⟨"", [], none⟩

/-- The exit code of a run. -/
def exitCode (r : Report) : Nat := if r.failure.isSome then 1 else 0

end Report

/-! ### Runs -/

/-- A run on files: it carries the report along and may end early. -/
abbrev RunM (m : Type → Type) := ExceptT Failure (StateT Report m)

namespace RunM

variable {m : Type → Type} [Monad m]

/-- A line of output. -/
def say (line : String) : RunM m Unit :=
  modify fun r => { r with output := r.output ++ line ++ "\n" }

/-- A warning. -/
def warn (text : String) : RunM m Unit :=
  modify fun r => { r with warnings := r.warnings ++ ["WARN dvmbasic_rust: " ++ text] }

/-- The text of a file. -/
def readFile (files : Files m) (path : String) : RunM m String := do
  let result ← (files.read path : m _)
  match result with
  | .ok text => pure text
  | .error fault => throw (.reading path fault)

/-- The writing of a file. -/
def writeFile (files : Files m) (path text : String) : RunM m Unit := do
  let result ← (files.write path text : m _)
  match result with
  | .ok () => pure ()
  | .error fault => throw (.writing path fault)

/-- The configuration in force. -/
def readConfig (files : Files m) : Option String → RunM m Config
  | none => pure .default
  | some path => do
    let text ← readFile files path
    match Config.ofText? text with
    | some config => pure config
    | none => throw (.config path)

/-- The checked program of an input. -/
def readProgram (files : Files m) (options : ParseOptions) (path : String) : RunM m Program := do
  let source ← readFile files path
  match Program.read options source with
  | .ok program => pure program
  | .error e => throw (.source path (e.render source.toList))

/-- The writing of a mapping, if there is one and a place for it. -/
def writeMapping (files : Files m) : Option Mapping → Option String → RunM m Unit
  | some mapping, some path => writeFile files path mapping.toJson.pretty
  | some _, none => warn "minified without --mapping; mapping discarded"
  | none, some _ => warn "--mapping ignored without --minify"
  | none, none => pure ()

/-- The work of a command. -/
def perform (files : Files m) (config : Config) : Task → RunM m Unit
  | .parse input flags pretty => do
    let program ← readProgram files (config.parseOptions flags) input
    say (if pretty then program.toJson.pretty else program.toJson.compact)
  | .generate input flags writing output mapping => do
    let program ← readProgram files (config.parseOptions flags) input
    let generated := program.generate (config.generateOptions writing)
    match output with
    | some path => writeFile files path generated.code
    | none => say generated.code
    writeMapping files generated.mapping mapping
  | .check input flags => do
    let program ← readProgram files (config.parseOptions flags) input
    say (input ++ ": ok (" ++ Text.decimal program.routines.length ++ " functions)")

end RunM

/-- The run of an invocation on given files. -/
def Invocation.run {m : Type → Type} [Monad m] (files : Files m) (i : Invocation) : m Report := do
  let work : RunM m Unit := do
    let config ← RunM.readConfig files i.config
    RunM.perform files config i.task
  let (result, report) ← work.run.run .silent
  match result with
  | .ok () => pure report
  | .error failure => pure { report with failure := some failure }

end ContractBasic
