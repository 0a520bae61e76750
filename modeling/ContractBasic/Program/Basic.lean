/-
Programs.

A program is what a source text means to the checks, the renaming and the printer: parentheses and
delimiters of comments are gone, every declaration names one variable, and every operation carries
its type.  Programs need not come from source text: names and texts are arbitrary, and an operation
may have any number of operands.

* `Program`, `Routine`, `Statement`, `Expression`
* `StatementKind.isExecutable` — whether a statement takes up its line number
* `StatementKind.expression?` — the expression that a statement holds
-/
import ContractBasic.Operator
import ContractBasic.ValueType

namespace ContractBasic

/-- A value written out. -/
inductive Literal where
  | uint64 (value : UInt64)
  | string (content : String)
deriving DecidableEq, Repr

/-- The domain of a literal. -/
def Literal.type : Literal → ValueType
  | uint64 _ => .uint64
  | string _ => .string

/-- An expression. -/
inductive Expression where
  | value (literal : Literal)
  | name (name : String)
  | call (name : String) (args : List Expression)
  | operation (operator : Operator) (operands : List Expression) (type : ValueType)
deriving Repr

mutual

/-- Expressions are told apart constructor by constructor. -/
def Expression.decEq : (a b : Expression) → Decidable (a = b)
  | .value l, .value m =>
    if h : l = m then isTrue (by rw [h]) else isFalse fun e => h (by injection e)
  | .name n, .name m =>
    if h : n = m then isTrue (by rw [h]) else isFalse fun e => h (by injection e)
  | .call f as, .call g bs =>
    if h : f = g then
      match Expression.decEqList as bs with
      | isTrue e => isTrue (by rw [h, e])
      | isFalse e => isFalse fun k => e (by injection k)
    else
      isFalse fun k => h (by injection k)
  | .operation o as s, .operation p bs t =>
    if h : o = p ∧ s = t then
      match Expression.decEqList as bs with
      | isTrue e => isTrue (by rw [h.1, h.2, e])
      | isFalse e => isFalse fun k => e (by injection k)
    else
      isFalse fun k => h (by injection k with h₁ _ h₂; exact ⟨h₁, h₂⟩)
  | .value _, .name _ | .value _, .call _ _ | .value _, .operation _ _ _
  | .name _, .value _ | .name _, .call _ _ | .name _, .operation _ _ _
  | .call _ _, .value _ | .call _ _, .name _ | .call _ _, .operation _ _ _
  | .operation _ _ _, .value _ | .operation _ _ _, .name _ | .operation _ _ _, .call _ _ =>
    isFalse nofun

/-- Lists of expressions are told apart member by member. -/
def Expression.decEqList : (as bs : List Expression) → Decidable (as = bs)
  | [], [] => isTrue rfl
  | [], _ :: _ => isFalse nofun
  | _ :: _, [] => isFalse nofun
  | a :: as, b :: bs =>
    match Expression.decEq a b, Expression.decEqList as bs with
    | isTrue h, isTrue k => isTrue (by rw [h, k])
    | isFalse h, _ => isFalse fun e => h (by injection e)
    | _, isFalse k => isFalse fun e => k (by injection e)

end

instance : DecidableEq Expression := Expression.decEq

/-- What a statement does. -/
inductive StatementKind where
  /-- A numbered line that holds nothing. -/
  | noOp
  | comment (text : String)
  | result (value : Expression)
  | evaluate (value : Expression)
  | branch (condition : Expression) (target : UInt64) (otherwise : Option UInt64)
  /-- The declaration of one variable. -/
  | dim (name : String) (type : ValueType)
  | assign (name : String) (value : Expression)
  | goto (target : UInt64)
deriving DecidableEq, Repr

namespace StatementKind

/-- Whether a statement takes up its line number; comments and empty lines do not. -/
def isExecutable : StatementKind → Bool
  | noOp | comment _ => false
  | _ => true

/-- The expression that a statement holds. -/
def expression? : StatementKind → Option Expression
  | result e | evaluate e | branch e _ _ | assign _ e => some e
  | noOp | comment _ | dim _ _ | goto _ => none

end StatementKind

/-- A statement and the line it belongs to. -/
structure Statement where
  line : UInt64
  kind : StatementKind
deriving DecidableEq, Repr

/-- A parameter of a function. -/
structure Param where
  name : String
  type : ValueType
deriving DecidableEq, Repr

/-- A function of a contract. -/
structure Routine where
  name : String
  returnType : ValueType
  params : List Param
  statements : List Statement
  comments : List String
deriving DecidableEq, Repr

/-- A program: its functions, and the comments that stand with none of them. -/
structure Program where
  headers : List String
  routines : List Routine
deriving DecidableEq, Repr

/-- The program without functions. -/
def Program.empty : Program := ⟨[], []⟩

end ContractBasic
