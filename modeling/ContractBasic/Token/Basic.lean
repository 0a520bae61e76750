/-
Tokens of source text.

Words are not told apart here: whether one is a keyword, a type or a name is for the grammar to
say, by where it stands.

* `Token.spelling` — how a token is written
* `Token.describe` — how a message names it
* `Placed` — anything found in a source text, with its byte offset
-/
import ContractBasic.Operator
import ContractBasic.Text.Numeral

namespace ContractBasic

/-- Something found at a byte offset of a source text. -/
structure Placed (α : Type) where
  offset : Nat
  item : α
deriving DecidableEq, Repr

/-- A token. -/
inductive Token where
  /-- A letter, then letters, digits and underscores. -/
  | word (text : String)
  | number (value : UInt64)
  /-- The characters between two quotes. -/
  | text (content : String)
  /-- A comment with its delimiters. -/
  | comment (raw : String)
  | lparen
  | rparen
  | comma
  | assign
  | operator (o : Operator)
deriving DecidableEq, Repr

namespace Token

/-- The canonical written form of a token. -/
def spelling : Token → String
  | word w => w
  | number value => Text.decimal value.toNat
  | text content => "\"" ++ content ++ "\""
  | comment raw => raw
  | lparen => "("
  | rparen => ")"
  | comma => ","
  | assign => "="
  | operator o => o.symbol

/-- How a message names a token. -/
def describe : Token → String
  | word w => "identifier `" ++ w ++ "`"
  | number value => "number `" ++ Text.decimal value.toNat ++ "`"
  | text content => "string \"" ++ content ++ "\""
  | comment _ => "comment"
  | t => "`" ++ t.spelling ++ "`"

/-- How a message names the place after the last token. -/
def describeEnd : String := "end of input"

-- A number is told by the form of its token, so that this is decided without trying all numbers.
instance (t : Token) : Decidable (∀ n, t = number n → False) :=
  match t with
  | number n => isFalse fun h => h n rfl
  | word _ | text _ | comment _ | lparen | rparen | comma | assign | operator _ => isTrue nofun

/-- Whether a token is a comment. -/
def isComment : Token → Bool
  | comment _ => true
  | _ => false

end Token

end ContractBasic
