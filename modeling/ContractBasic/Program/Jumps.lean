/-
Jumps and the lines they lead to.

A jump leads to a line of its own function that holds an executable statement; this is checked only
where it is asked for.

* `Program.checkTargets` — the check, which reports the first jump that leads nowhere
-/
import ContractBasic.Error

namespace ContractBasic

/-- The lines that a statement may jump to. -/
def StatementKind.targets : StatementKind → List UInt64
  | goto n => [n]
  | branch _ n otherwise => n :: otherwise.toList
  | _ => []

/-- The lines of a function that hold an executable statement. -/
def Routine.executableLines (r : Routine) : List UInt64 :=
  (r.statements.filter fun s => s.kind.isExecutable).map (·.line)

/-- The jumps of a function, each with the line it stands on. -/
def Routine.jumps (r : Routine) : List (UInt64 × UInt64) :=
  r.statements.flatMap fun s => s.kind.targets.map fun n => (s.line, n)

/-- The check that the jumps of a function lead to its executable lines. -/
def Routine.checkTargets (r : Routine) : Except Error Unit :=
  match r.jumps.find? fun j => !r.executableLines.contains j.2 with
  | some (line, target) => .error (.unknownTarget r.name line target)
  | none => .ok ()

/-- The check that every jump of a program leads to an executable line of its function. -/
def Program.checkTargets (p : Program) : Except Error Unit :=
  p.routines.forM Routine.checkTargets

end ContractBasic
