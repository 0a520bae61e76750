/-
The tree of a source text.

The tree keeps what the text says: parentheses, comments with their delimiters, and several names
in one declaration.  The grammar, loosest layer of operators first:

    program    ::= function*
    function   ::= "Function" name "(" [name type ("," name type)*] ")" type line* "End" "Function"
    line       ::= number [statement]
    statement  ::= DIM name ("," name)* AS type
                 | LET name "=" expr
                 | GOTO number
                 | IF expr THEN GOTO number [ELSE GOTO number]
                 | RETURN expr
                 | expr
    expr       ::= layers |  ^  &  (== !=)  (< > <= >=)  (<< >>)  (+ - %)  (* /)  over operands
    operand    ::= ["!"] primary
    primary    ::= "(" expr ")" | name "(" [expr ("," expr)*] ")" | number | text | name

* `ParseTree` — a whole text
* `ParseTree.Expr` — expressions, with `Expr.join` to add an operand at the right end of a chain
-/
import ContractBasic.Token.Basic
import ContractBasic.ValueType

namespace ContractBasic

/-- A comment as it stands in the source text, delimiters included. -/
abbrev Comment := Placed String

namespace ParseTree

/-- An expression. -/
inductive Expr where
  | number (value : UInt64)
  | text (content : String)
  | name (name : String)
  | call (name : String) (args : List Expr)
  | paren (inner : Expr)
  | not (operand : Expr)
  | binary (operator : Operator) (left right : Expr)
deriving Repr

/-- A statement. -/
inductive Stmt where
  | dim (names : List String) (type : ValueType)
  | assign (name : String) (value : Expr)
  | goto (target : UInt64)
  | branch (condition : Expr) (target : UInt64) (otherwise : Option UInt64)
  | result (value : Expr)
  | evaluate (value : Expr)
deriving Repr

/-- A numbered line.  Its comments are those after its number and before the next line. -/
structure Line where
  number : UInt64
  offset : Nat
  statement : Option Stmt
  comments : List Comment
deriving Repr

/-- A parameter.  Its comments stand between the separators around it. -/
structure Param where
  name : String
  type : ValueType
  comments : List Comment
deriving DecidableEq, Repr

/-- A function of the contract; `offset` is the place of its name.  Its comments are those before
it and those in its first line outside a non-empty parameter list. -/
structure Routine where
  name : String
  offset : Nat
  params : List Param
  returnType : ValueType
  comments : List Comment
  lines : List Line
deriving Repr

end ParseTree

/-- A source text: its functions, and the comments after the last of them. -/
structure ParseTree where
  routines : List ParseTree.Routine
  trailing : List Comment
deriving Repr

namespace ParseTree.Expr

/-- The chain `e` continued by operator `o` and one more operand `r`.  The operand goes to the
right operand of `e` where `o` binds tighter than the operator of `e`, and takes the whole of `e`
as its left partner otherwise, so operators of one layer group to the left. -/
def join (e : Expr) (o : Operator) (r : Expr) : Expr :=
  match e with
  | binary p a b => if p.layer < o.layer then binary p a (join b o r) else binary o (binary p a b) r
  | _ => binary o e r

end ParseTree.Expr

end ContractBasic
