/-
Types of operations.

An operation is typed once, from its operator and from what its immediate operands reveal.  Names and
calls reveal nothing; where sums and equalities have two opinions, the right operand decides.

* `Expression.hint` — what an operand reveals
* `Operator.resultType` — the type of an operation from the hints of its operands
-/
import ContractBasic.Program.Basic

namespace ContractBasic

/-- What an operand reveals about the operation around it: a literal its domain, an operation of
known type that type, or a number if it compares. -/
def Expression.hint : Expression → Option ValueType
  | .value l => some l.type
  | .operation _ _ .unknown => none
  | .operation (.comparison _) _ _ => some .uint64
  | .operation _ _ type => some type
  | .name _ | .call _ _ => none

/-- The type of an operation; `left` is `none` for an operator without a left operand. -/
def Operator.resultType (o : Operator) (left right : Option ValueType) : ValueType :=
  match o with
  | .comparison .eq | .comparison .ne | .arithmetic .add => (right.or left).getD .unknown
  | _ => .uint64

end ContractBasic
