/-
Walks over the expressions of a program.

Both walks take the functions in order, their statements in order, and the nodes of each expression
with operands and arguments, left to right, before the node that holds them.  An action learns the
name of the function it works in.

* `Program.visit` — an action on every node; it may fail and so end the walk
* `Program.respell` — new spellings for the names and the calls; all else is kept
-/
import ContractBasic.Program.Basic

namespace ContractBasic

variable {m : Type → Type} [Monad m]

/-! ### Looking at every node -/

mutual

/-- The action on every node of an expression. -/
def Expression.visit (act : Expression → m Unit) : Expression → m Unit
  | .value l => act (.value l)
  | .name n => act (.name n)
  | .call f args => do
    Expression.visitAll act args
    act (.call f args)
  | .operation o operands type => do
    Expression.visitAll act operands
    act (.operation o operands type)

/-- The action on every node of each expression. -/
def Expression.visitAll (act : Expression → m Unit) : List Expression → m Unit
  | [] => pure ()
  | e :: es => do
    Expression.visit act e
    Expression.visitAll act es

end

/-- The action on every node of every expression of a program. -/
def Program.visit (act : String → Expression → m Unit) (p : Program) : m Unit :=
  p.routines.forM fun r =>
    r.statements.forM fun s =>
      match s.kind.expression? with
      | some e => e.visit (act r.name)
      | none => pure ()

/-! ### Spelling names anew -/

/-- New spellings: of a name, and of a call with these arguments, in a function. -/
structure Respelling (m : Type → Type) where
  name : String → String → m String
  call : String → String → List Expression → m String

mutual

/-- An expression in a function with its names and calls spelled anew. -/
def Expression.respell (s : Respelling m) (scope : String) : Expression → m Expression
  | .value l => pure (.value l)
  | .name n => do
    let n ← s.name scope n
    pure (.name n)
  | .call f args => do
    let args ← Expression.respellAll s scope args
    let f ← s.call scope f args
    pure (.call f args)
  | .operation o operands type => do
    let operands ← Expression.respellAll s scope operands
    pure (.operation o operands type)

/-- Expressions in a function with their names and calls spelled anew. -/
def Expression.respellAll (s : Respelling m) (scope : String) :
    List Expression → m (List Expression)
  | [] => pure []
  | e :: es => do
    let e ← Expression.respell s scope e
    let es ← Expression.respellAll s scope es
    pure (e :: es)

end

/-- A statement with its expression replaced. -/
def StatementKind.mapExpression (f : Expression → m Expression) : StatementKind → m StatementKind
  | result e => do pure (result (← f e))
  | evaluate e => do pure (evaluate (← f e))
  | branch e n o => do pure (branch (← f e) n o)
  | assign n e => do pure (assign n (← f e))
  | k => pure k

/-- A program with the names and calls of its expressions spelled anew. -/
def Program.respell (s : Respelling m) (p : Program) : m Program := do
  let routines ← p.routines.mapM fun r => do
    let statements ← r.statements.mapM fun st => do
      let kind ← st.kind.mapExpression (Expression.respell s r.name)
      pure { st with kind := kind }
    pure { r with statements := statements }
  pure { p with routines := routines }

end ContractBasic
