/-
Names and what they may be used for.

A call must mean a function or a native, and a bare name a parameter or a variable, where both are
looked up from the function they stand in.

* `SymbolTable.checkUse` — the rule for one node
* `Program.checkNames` — the rule for every node, which reports the first offence
-/
import ContractBasic.Error
import ContractBasic.Program.Traverse

namespace ContractBasic

/-- The check of one node of an expression in a function. -/
def SymbolTable.checkUse (t : SymbolTable) (routine : String) : Expression → Except Error Unit
  | .call f _ =>
    match t.resolveCall? routine f with
    | none => .error (.notFound .call f)
    | some (_, info) => if info.kind.isCallable then .ok () else .error (.misused .call info.kind f)
  | .name n =>
    match t.resolve? routine n with
    | none => .error (.notFound .value n)
    | some (_, info) => if info.kind.isCallable then .error (.misused .value info.kind n) else .ok ()
  | .value _ | .operation _ _ _ => .ok ()

/-- The check that every name of a program means what it is used for, by the declarations of a
table. -/
def Program.checkNames (p : Program) (t : SymbolTable) : Except Error Unit :=
  p.visit t.checkUse

end ContractBasic
