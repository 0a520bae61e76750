/-
The words of a command line.

A command line names one command with an input; options may stand before and after the input, and
`--config` also before the command.  An option's value is settled only when the next option, the
input or the end is reached, and it is then that a missing, an empty or a second value is noticed.

* `Invocation` — what a command line asks for
* `UsageProblem` — why it asks for nothing that can be run
* `Invocation.ofWords` — the reading of the words
-/
import ContractBasic.Options

namespace ContractBasic

/-- Why a command line is not run. -/
inductive UsageProblem where
  | displayHelp
  | displayVersion
  /-- Nothing is given at all. -/
  | nothingGiven
  | missingCommand
  | invalidCommand
  | missingInput
  | unknownArgument
  /-- An option or a flag is given twice. -/
  | argumentConflict
  /-- A flag is given a value. -/
  | tooManyValues
  /-- A value is empty or missing. -/
  | invalidValue
deriving DecidableEq, Repr

/-- The exit code of a command line that is not run. -/
def UsageProblem.exitCode : UsageProblem → Nat
  | displayHelp | displayVersion => 0
  | _ => 2

/-- What a command does, with its input. -/
inductive Task where
  | parse (input : String) (flags : ParseOptions) (pretty : Bool)
  | generate (input : String) (flags : ParseOptions) (writing : GenerateOptions)
      (output mapping : Option String)
  | check (input : String) (flags : ParseOptions)
deriving DecidableEq, Repr

/-- What a command line asks for. -/
structure Invocation where
  config : Option String
  task : Task
deriving DecidableEq, Repr

namespace CommandLine

/-! ### Vocabulary -/

/-- The commands. -/
inductive Command where
  | parse
  | generate
  | check
deriving DecidableEq, Repr

/-- The command of a word. -/
def Command.ofWord? (word : String) : Option Command :=
  [("parse", parse), ("generate", generate), ("check", check)].lookup word

/-- Whether a word names a command or the help on commands. -/
def isCommandWord (word : String) : Bool :=
  word = "help" || (Command.ofWord? word).isSome

/-- Flags. -/
inductive Flag where
  | keepEmptyLines
  | checkTargets
  | pretty
  | minify
  | comments
  | compact
deriving DecidableEq, Repr

/-- Options that take a value. -/
inductive ValueOption where
  | config
  | output
  | mapping
deriving DecidableEq, Repr

/-- What the name of an option stands for. -/
inductive Switch where
  | help
  | version
  | flag (f : Flag)
  | value (o : ValueOption)
deriving DecidableEq, Repr

/-- The options that every command has. -/
def sharedSwitches : List (String × Switch) :=
  [("help", .help), ("config", .value .config)]

/-- The flags of every command for reading its input. -/
def inputSwitches : List (String × Switch) :=
  [("keep-empty-lines", .flag .keepEmptyLines), ("check-goto", .flag .checkTargets)]

/-- The options by their long names, after a command or before it. -/
def switches : Option Command → List (String × Switch)
  | none => sharedSwitches ++ [("version", .version)]
  | some .parse => sharedSwitches ++ inputSwitches ++ [("pretty", .flag .pretty)]
  | some .check => sharedSwitches ++ inputSwitches
  | some .generate =>
    sharedSwitches ++ inputSwitches ++
      [("minify", .flag .minify), ("comments", .flag .comments), ("optimize-space", .flag .compact),
        ("output", .value .output), ("mapping", .value .mapping)]

/-- The options by their letters, after a command or before it. -/
def letters : Option Command → List (Char × Switch)
  | none => [('h', .help), ('V', .version)]
  | some .generate => [('h', .help), ('o', .value .output)]
  | some _ => [('h', .help)]

/-! ### One level of words -/

/-- What a value is for. -/
inductive Owner where
  | option (o : ValueOption)
  | input
deriving DecidableEq, Repr

/-- The reading of the words before a command, or after one. -/
structure Level where
  command : Option Command
  flags : List Flag
  values : List (Owner × String)
  /-- An option or the input whose value is not settled, with the value if it is there. -/
  pending : Option (Owner × Option String)
  /-- Whether `--` has ended the options. -/
  trailing : Bool
deriving DecidableEq, Repr

namespace Level

/-- Before the first word. -/
def start (command : Option Command) : Level := ⟨command, [], [], none, false⟩

/-- The value of an option or of the input. -/
def value? (l : Level) (o : Owner) : Option String := l.values.lookup o

/-- Whether an option waits for its value. -/
def isAwaiting (l : Level) : Bool :=
  match l.pending with
  | some (_, none) => !l.trailing
  | _ => false

/-- The level with a value settled. -/
def settleValue (l : Level) (o : Owner) (v : String) : Except UsageProblem Level :=
  if (l.value? o).isSome then .error .argumentConflict
  else if v = "" then .error .invalidValue
  else .ok { l with values := l.values ++ [(o, v)] }

/-- The level with nothing pending. -/
def settle (l : Level) : Except UsageProblem Level :=
  match l.pending with
  | none => .ok l
  | some (_, none) => .error .invalidValue
  | some (o, some v) => { l with pending := none }.settleValue o v

/-- The level after the name of an option, with the value that is attached to it. -/
def takeSwitch (l : Level) (attached : Option String) : Switch → Except UsageProblem Level
  | .value o => do
    let l ← l.settle
    match attached with
    | some v => l.settleValue (.option o) v
    | none => pure { l with pending := some (.option o, none) }
  | s =>
    match attached, s with
    | some _, _ => .error .tooManyValues
    | none, .flag f => do
      let l ← l.settle
      if f ∈ l.flags then .error .argumentConflict
      else pure { l with flags := f :: l.flags }
    | none, .version => do
      let _ ← l.settle
      .error .displayVersion
    | none, _ => do
      let _ ← l.settle
      .error .displayHelp

/-- The level after a word that starts with two hyphens, which are left off. -/
def takeLong (l : Level) (name : List Char) : Except UsageProblem Level :=
  let attached :=
    match name.dropWhile (· ≠ '=') with
    | '=' :: v => some (String.ofList v)
    | _ => none
  match (switches l.command).lookup (String.ofList (name.takeWhile (· ≠ '='))) with
  | some s => l.takeSwitch attached s
  | none => .error .unknownArgument

/-- The level after a word that starts with one hyphen, which is left off: a letter, with a value
attached if more follows. -/
def takeShort (l : Level) (c : Char) (rest : List Char) : Except UsageProblem Level :=
  match (letters l.command).lookup c with
  | some (.value o) =>
    match rest with
    | [] => l.takeSwitch none (.value o)
    | '=' :: v | v => l.takeSwitch (some (String.ofList v)) (.value o)
  | some s => l.takeSwitch none s
  | none => .error .unknownArgument

/-- Whether the input is given, settled or not. -/
def hasInput (l : Level) : Bool :=
  (l.value? .input).isSome || (l.pending.map (·.1)) = some .input

/-- The level after a word that is no option: the value of an option that waits for one, or else
the input of a command. -/
def takePlain (l : Level) (word : String) : Except UsageProblem Level :=
  match l.isAwaiting, l.pending, l.command with
  | true, some (o, _), _ => .ok { l with pending := some (o, some word) }
  | _, _, none =>
    if l.trailing ∧ isCommandWord word then .error .unknownArgument else .error .invalidCommand
  | _, _, some _ =>
    if l.hasInput then
      .error .unknownArgument
    else do
      let l ← l.settle
      pure { l with pending := some (.input, some word) }

/-- The level after one more word. -/
def take (l : Level) (word : String) : Except UsageProblem Level :=
  if l.trailing then
    l.takePlain word
  else
    match word.toList with
    | ['-', '-'] => .ok { l with trailing := true }
    | '-' :: '-' :: name => l.takeLong name
    | ['-'] => l.takePlain word
    | '-' :: c :: rest => l.takeShort c rest
    | _ => l.takePlain word

/-- The level after the last word. -/
def takeAll (l : Level) (words : List String) : Except UsageProblem Level := do
  let l ← words.foldlM take l
  l.settle

end Level

/-! ### Whole command lines -/

/-- The task that the words after a command describe. -/
def taskOf (command : Command) (l : Level) : Except UsageProblem Task :=
  match l.value? .input with
  | none => .error .missingInput
  | some input =>
    let has := fun f => l.flags.contains f
    let flags : ParseOptions := ⟨has .keepEmptyLines, has .checkTargets⟩
    match command with
    | .parse => .ok (.parse input flags (has .pretty))
    | .check => .ok (.check input flags)
    | .generate =>
      let writing : GenerateOptions := ⟨has .minify, has .comments, has .compact⟩
      .ok (.generate input flags writing (l.value? (.option .output)) (l.value? (.option .mapping)))

/-- Why the words after `help` are not run. -/
def helpProblem : List String → UsageProblem
  | [] => .displayHelp
  | [word] => if isCommandWord word then .displayHelp else .invalidCommand
  | _ => .invalidCommand

/-- The invocation of a command with the words after it, at the end of those before it. -/
def invoke (before : Level) (command : Command) (words : List String) :
    Except UsageProblem Invocation := do
  let after ← (Level.start (some command)).takeAll words
  let task ← taskOf command after
  let before ← before.settle
  let config := (after.value? (.option .config)).or (before.value? (.option .config))
  pure ⟨config, task⟩

/-- The invocation of a command line, some of whose words are read. -/
def read (l : Level) : List String → Except UsageProblem Invocation
  | [] => do
    let l ← l.settle
    if l.values = [] then .error .nothingGiven else .error .missingCommand
  | word :: words =>
    if isCommandWord word ∧ !l.trailing ∧ !l.isAwaiting then
      match Command.ofWord? word with
      | some command => invoke l command words
      | none => .error (helpProblem words)
    else do
      let l ← l.take word
      read l words

end CommandLine

/-- The invocation of a command line, without the name of the program. -/
def Invocation.ofWords (words : List String) : Except UsageProblem Invocation :=
  CommandLine.read (.start none) words

end ContractBasic
