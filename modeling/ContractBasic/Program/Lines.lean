/-
Lines and the statements that stand on them.

A line of a function holds one statement.  Declarations of one type that follow each other on one
line came from a single statement, or can be written as one, and form one item.

* `Item.ofStatements` — the statements of a function with such declarations joined
* `ParseTree.checkLines`, `Program.checkLines` — no two statements of a function share a line
-/
import ContractBasic.Error

namespace ContractBasic

/-! ### Items -/

/-- What is written as one statement. -/
inductive Item where
  /-- Variables of one type declared on one line. -/
  | dims (line : UInt64) (names : List String) (type : ValueType)
  | single (statement : Statement)
deriving DecidableEq, Repr

/-- The line of an item. -/
def Item.line : Item → UInt64
  | dims n _ _ => n
  | single s => s.line

/-- A declaration in front of items: joined to the first of them if that declares variables of the
same type on the same line. -/
def Item.declare (line : UInt64) (name : String) (type : ValueType) (later : List Item) :
    List Item :=
  match later with
  | dims n names t :: rest =>
    if n = line ∧ t = type then dims line (name :: names) type :: rest
    else dims line [name] type :: later
  | _ => dims line [name] type :: later

/-- The items that statements form. -/
def Item.ofStatements (statements : List Statement) : List Item :=
  statements.foldr
    (fun s later =>
      match s.kind with
      | .dim name type => declare s.line name type later
      | _ => .single s :: later)
    []

/-! ### Lines taken twice -/

/-- An ascending row of numbers with one more number, unless it is there. -/
def insertAscending (n : UInt64) : List UInt64 → List UInt64
  | [] => [n]
  | m :: ms =>
    if n < m then n :: m :: ms
    else if n = m then m :: ms
    else m :: insertAscending n ms

/-- The numbers that occur more than once, ascending and once each. -/
def repeated (lines : List UInt64) : List UInt64 :=
  (lines.filter fun n => 1 < lines.count n).foldr insertAscending []

/-- The check that the lines of a function are distinct. -/
def checkDistinct (routine : String) (lines : List UInt64) : Except Error Unit :=
  match repeated lines with
  | [] => .ok ()
  | ns => .error (.duplicateLines routine ns)

/-- The lines of a function of a source text that hold a statement. -/
def ParseTree.Routine.takenLines (r : ParseTree.Routine) : List UInt64 :=
  (r.lines.filter fun l => l.statement.isSome).map (·.number)

/-- The lines of a function that its items take up, once per item. -/
def Routine.takenLines (r : Routine) : List UInt64 :=
  (Item.ofStatements (r.statements.filter fun s => s.kind.isExecutable)).map Item.line

/-- The check that no two statements of a function of the text share a line. -/
def ParseTree.checkLines (t : ParseTree) : Except Error Unit :=
  t.routines.forM fun r => checkDistinct r.name r.takenLines

/-- The check that no two items of a function share a line. -/
def Program.checkLines (p : Program) : Except Error Unit :=
  p.routines.forM fun r => checkDistinct r.name r.takenLines

end ContractBasic
