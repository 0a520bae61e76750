/-
From source text to programs.

* `Program.evaluate` — the program of a text, unchecked
* `Program.read` — the program of a text that passes every check; the first failure is reported, and
  the checks run in a fixed order: grammar, lines of the text, lines of the program, names, jumps
-/
import ContractBasic.Options
import ContractBasic.Program.Jumps
import ContractBasic.Program.Lines
import ContractBasic.Program.Names
import ContractBasic.Program.OfTree

namespace ContractBasic.Program

/-- The program that a source text stands for. -/
def evaluate (options : ParseOptions) (source : String) : Except Error Program := do
  let tree ← ParseTree.ofSource source
  pure (.ofTree options.keepEmptyLines tree)

/-- The program that a source text stands for, if it passes the checks. -/
def read (options : ParseOptions) (source : String) : Except Error Program := do
  let tree ← ParseTree.ofSource source
  tree.checkLines
  let program := ofTree options.keepEmptyLines tree
  program.checkLines
  program.checkNames (.ofProgram program)
  if options.checkTargets then
    program.checkTargets
  pure program

end ContractBasic.Program
