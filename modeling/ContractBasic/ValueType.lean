/-
The value domains of the language.

A declaration names one of the two domains; an operation whose operands reveal nothing has the
third, which no declaration can name in source text.
-/

namespace ContractBasic

/-- The domain of a value. -/
inductive ValueType where
  | uint64
  | string
  | unknown
deriving DecidableEq, Repr

namespace ValueType

/-- The word for a domain. -/
def keyword : ValueType → String
  | uint64 => "Uint64"
  | string => "String"
  | unknown => "Unknown"

/-- The domain that a word of source text declares; case matters. -/
def ofKeyword? (word : String) : Option ValueType :=
  [uint64, string].find? (·.keyword = word)

end ValueType

end ContractBasic
