/-
Programs of source trees.

Parentheses vanish, since the shape of the tree holds the grouping; comments lose their delimiters;
a declaration of several names becomes one statement per name; operations get their types.

* `cleanComment` — the text of a comment
* `Expression.ofTree`, `Program.ofTree` — the expression and the program that a tree stands for
-/
import ContractBasic.Grammar.ParseTree
import ContractBasic.Program.Typing
import ContractBasic.Text.Blank

namespace ContractBasic

/-! ### Comments -/

/-- A text without `tail` at its end, if it ends so. -/
def Text.dropTail (tail cs : List Char) : List Char :=
  if tail.isSuffixOf cs then cs.take (cs.length - tail.length) else cs

/-- The text of a comment: its delimiters and the blanks around it are dropped.  A block comment
may lack its closing delimiter, and a text without delimiters is only trimmed. -/
def cleanComment (raw : String) : String :=
  let body :=
    match raw.toList with
    | '/' :: '/' :: cs => cs
    | '/' :: '*' :: cs => Text.dropTail ['*', '/'] cs
    | cs => cs
  String.ofList (Text.trim body)

/-- The texts of comments; blank ones are dropped. -/
def cleanComments (comments : List Comment) : List String :=
  (comments.map fun c => cleanComment c.item).filter (· ≠ "")

/-! ### Expressions -/

mutual

/-- The expression that a tree stands for. -/
def Expression.ofTree : ParseTree.Expr → Expression
  | .number n => .value (.uint64 n)
  | .text s => .value (.string s)
  | .name n => .name n
  | .call f args => .call f (Expression.ofTrees args)
  | .paren e => ofTree e
  | .not e =>
    let operand := ofTree e
    .operation (.bitwise .not) [operand] (Operator.resultType (.bitwise .not) none operand.hint)
  | .binary o l r =>
    let left := ofTree l
    let right := ofTree r
    .operation o [left, right] (o.resultType left.hint right.hint)

/-- The expressions that a list of trees stands for. -/
def Expression.ofTrees : List ParseTree.Expr → List Expression
  | [] => []
  | e :: es => ofTree e :: ofTrees es

end

/-! ### Statements, functions, programs -/

/-- What a statement of the source text does, one entry per statement of the program. -/
def StatementKind.ofTree : ParseTree.Stmt → List StatementKind
  | .dim names type => names.map (.dim · type)
  | .assign n e => [.assign n (.ofTree e)]
  | .goto n => [.goto n]
  | .branch c n m => [.branch (.ofTree c) n m]
  | .result e => [.result (.ofTree e)]
  | .evaluate e => [.evaluate (.ofTree e)]

/-- The statements of a line: what it does, then its comments.  With `keepEmpty`, a line that holds
nothing at all is kept as a statement of its own. -/
def Statement.ofLine (keepEmpty : Bool) (l : ParseTree.Line) : List Statement :=
  let kinds :=
    match l.statement with
    | some s => StatementKind.ofTree s
    | none => if keepEmpty ∧ l.comments = [] then [.noOp] else []
  (kinds ++ (cleanComments l.comments).map .comment).map (⟨l.number, ·⟩)

/-- The comments of a parameter, each marked with its name. -/
def markedComments (p : ParseTree.Param) : List String :=
  (cleanComments p.comments).map fun text => "@arg=" ++ p.name ++ ":" ++ text

/-- The function that a tree stands for; the comments of its parameters follow its own. -/
def Routine.ofTree (keepEmpty : Bool) (r : ParseTree.Routine) : Routine where
  name := r.name
  returnType := r.returnType
  params := r.params.map fun p => ⟨p.name, p.type⟩
  statements := r.lines.flatMap (Statement.ofLine keepEmpty)
  comments := cleanComments r.comments ++ r.params.flatMap markedComments

/-- The program that a tree stands for. -/
def Program.ofTree (keepEmpty : Bool) (t : ParseTree) : Program where
  headers := cleanComments t.trailing
  routines := t.routines.map (Routine.ofTree keepEmpty)

end ContractBasic
