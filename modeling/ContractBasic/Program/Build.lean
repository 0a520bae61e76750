/-
Short forms for building programs by hand.

Operations built here have the type they are given; nothing is inferred.
-/
import ContractBasic.Program.Basic

namespace ContractBasic

namespace Expression

/-- A number. -/
def int (n : UInt64) : Expression := .value (.uint64 n)

/-- A text. -/
def text (s : String) : Expression := .value (.string s)

/-- An operation on two operands. -/
def binary (o : Operator) (left right : Expression) (type : ValueType) : Expression :=
  .operation o [left, right] type

/-- The negation of a number. -/
def not (operand : Expression) : Expression :=
  .operation (.bitwise .not) [operand] .uint64

end Expression

namespace Statement

/-- A call for its effect. -/
def call (name : String) (args : List Expression) (line : UInt64) : Statement :=
  ⟨line, .evaluate (.call name args)⟩

/-- The storing of a value under a key. -/
def store (key value : Expression) (line : UInt64) : Statement :=
  call "STORE" [key, value] line

/-- The declaration of a variable. -/
def declare (name : String) (type : ValueType) (line : UInt64) : Statement :=
  ⟨line, .dim name type⟩

/-- The declaration of several variables on one line. -/
def declareMany (names : List String) (type : ValueType) (line : UInt64) : List Statement :=
  names.map (declare · type line)

/-- The assignment of a value. -/
def assign (name : String) (value : Expression) (line : UInt64) : Statement :=
  ⟨line, .assign name value⟩

/-- The return of a number. -/
def returnInt (n : UInt64) (line : UInt64) : Statement :=
  ⟨line, .result (.int n)⟩

/-- The return of a value. -/
def returnValue (value : Expression) (line : UInt64) : Statement :=
  ⟨line, .result value⟩

/-- A jump under a condition. -/
def ifThen (condition : Expression) (target : UInt64) (line : UInt64) : Statement :=
  ⟨line, .branch condition target none⟩

/-- A jump to one of two lines. -/
def ifThenElse (condition : Expression) (target otherwise : UInt64) (line : UInt64) : Statement :=
  ⟨line, .branch condition target (some otherwise)⟩

/-- A jump. -/
def goto (target line : UInt64) : Statement :=
  ⟨line, .goto target⟩

/-- A comment. -/
def comment (text : String) (line : UInt64) : Statement :=
  ⟨line, .comment text⟩

/-- An empty line. -/
def noOp (line : UInt64) : Statement :=
  ⟨line, .noOp⟩

end Statement

/-- A function without comments. -/
def Routine.build (name : String) (params : List Param) (returnType : ValueType)
    (statements : List Statement) : Routine :=
  ⟨name, returnType, params, statements, []⟩

end ContractBasic
