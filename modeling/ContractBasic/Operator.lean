/-
Operators, their spelling and how tightly they bind.

Operators come in three families; the typing of an operation asks only for the family and for the
few operators whose operands decide.  All but `!` stand between two operands.

* `Operator.symbol`, `Operator.ofSymbol?` — the canonical spelling and its inverse
* `Operator.layer` — how tightly an operator binds
-/

namespace ContractBasic

/-- Operators that compare. -/
inductive Comparison where
  | eq
  | ne
  | lt
  | gt
  | le
  | ge
deriving DecidableEq, Repr

/-- Operators that calculate; `+` also joins texts. -/
inductive Arithmetic where
  | add
  | sub
  | mul
  | div
  | mod
deriving DecidableEq, Repr

/-- Operators on the bits of a number. -/
inductive Bitwise where
  | and
  | or
  | xor
  | shl
  | shr
  | not
deriving DecidableEq, Repr

/-- An operator, by its family. -/
inductive Operator where
  | comparison (c : Comparison)
  | arithmetic (a : Arithmetic)
  | bitwise (b : Bitwise)
deriving DecidableEq, Repr

namespace Operator

/-- Every operator once. -/
def all : List Operator :=
  [.comparison .eq, .comparison .ne, .comparison .lt, .comparison .gt, .comparison .le,
    .comparison .ge, .arithmetic .add, .arithmetic .sub, .arithmetic .mul, .arithmetic .div,
    .arithmetic .mod, .bitwise .and, .bitwise .or, .bitwise .xor, .bitwise .shl, .bitwise .shr,
    .bitwise .not]

/-- The canonical spelling. -/
def symbol : Operator → String
  | comparison .eq => "=="
  | comparison .ne => "!="
  | comparison .lt => "<"
  | comparison .gt => ">"
  | comparison .le => "<="
  | comparison .ge => ">="
  | arithmetic .add => "+"
  | arithmetic .sub => "-"
  | arithmetic .mul => "*"
  | arithmetic .div => "/"
  | arithmetic .mod => "%"
  | bitwise .and => "&"
  | bitwise .or => "|"
  | bitwise .xor => "^"
  | bitwise .shl => "<<"
  | bitwise .shr => ">>"
  | bitwise .not => "!"

/-- The operator of a canonical spelling. -/
def ofSymbol? (text : String) : Option Operator :=
  all.find? (·.symbol = text)

/-- Whether the operator stands before a single operand. -/
def isUnary (o : Operator) : Bool :=
  o = bitwise .not

/-- How tightly an operator binds, loosest first.  The remainder binds as loosely as the sum, and
`!`, which takes no left operand, binds tightest. -/
def layer : Operator → Nat
  | bitwise .or => 0
  | bitwise .xor => 1
  | bitwise .and => 2
  | comparison .eq | comparison .ne => 3
  | comparison .lt | comparison .gt | comparison .le | comparison .ge => 4
  | bitwise .shl | bitwise .shr => 5
  | arithmetic .add | arithmetic .sub | arithmetic .mod => 6
  | arithmetic .mul | arithmetic .div => 7
  | bitwise .not => 8

end Operator

end ContractBasic
