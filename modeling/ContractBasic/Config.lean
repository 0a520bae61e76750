/-
The configuration file and its union with the flags of a command line.

A configuration is a JSON record of options; what it leaves out is off, and what it or a flag
switches on is on.

* `Config.ofText?` — the configuration of a text
* `Config.parseOptions`, `Config.generateOptions` — the options in force together with flags
-/
import ContractBasic.Json.Reader
import ContractBasic.Options

namespace ContractBasic

/-- Options for both directions. -/
structure Config where
  parse : ParseOptions
  generate : GenerateOptions
deriving DecidableEq, Repr

open Json

/-! ### Options as JSON -/

/-- Options for reading. -/
def ParseOptions.toJson (o : ParseOptions) : Json :=
  .object [("keep_empty_lines", .bool o.keepEmptyLines), ("check_goto_targets", .bool o.checkTargets)]

/-- The options for reading that a value stands for. -/
def ParseOptions.ofJson? (j : Json) : Option ParseOptions :=
  match j.fields? ["keep_empty_lines", "check_goto_targets"] with
  | some [keep, check] => do
    let keep ← default? bool? false keep
    let check ← default? bool? false check
    pure ⟨keep, check⟩
  | _ => none

/-- Options for writing. -/
def GenerateOptions.toJson (o : GenerateOptions) : Json :=
  .object
    [("minify", .bool o.minify), ("comments", .bool o.comments), ("optimize_space", .bool o.compact)]

/-- The options for writing that a value stands for. -/
def GenerateOptions.ofJson? (j : Json) : Option GenerateOptions :=
  match j.fields? ["minify", "comments", "optimize_space"] with
  | some [minify, comments, compact] => do
    let minify ← default? bool? false minify
    let comments ← default? bool? false comments
    let compact ← default? bool? false compact
    pure ⟨minify, comments, compact⟩
  | _ => none

namespace Config

/-- Nothing switched on. -/
def default : Config := ⟨.default, .default⟩

/-- A configuration. -/
def toJson (c : Config) : Json :=
  .object [("parse", c.parse.toJson), ("generate", c.generate.toJson)]

/-- The configuration that a value stands for. -/
def ofJson? (j : Json) : Option Config :=
  match j.fields? ["parse", "generate"] with
  | some [parse, generate] => do
    let parse ← default? ParseOptions.ofJson? .default parse
    let generate ← default? GenerateOptions.ofJson? .default generate
    pure ⟨parse, generate⟩
  | _ => none

/-- The configuration of a text. -/
def ofText? (text : String) : Option Config :=
  (Json.parse? text).bind ofJson?

/-! ### Union with flags -/

/-- The options for reading in force. -/
def parseOptions (c : Config) (flags : ParseOptions) : ParseOptions where
  keepEmptyLines := c.parse.keepEmptyLines || flags.keepEmptyLines
  checkTargets := c.parse.checkTargets || flags.checkTargets

/-- The options for writing in force. -/
def generateOptions (c : Config) (flags : GenerateOptions) : GenerateOptions where
  minify := c.generate.minify || flags.minify
  comments := c.generate.comments || flags.comments
  compact := c.generate.compact || flags.compact

end Config

end ContractBasic
