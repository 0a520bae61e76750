/-
Reading an expression, one token at a time.

A reading is at a `Spot` inside the enclosures opened and not yet closed.  Between enclosures stands
a chain of operands; each new operand is joined to the chain at once, so nothing has to be undone
when an operator of another layer follows.

* `ExprReading.step` — the reading after one more token, if the token can stand there
* `ExprReading.value?` — the expression read so far, if the reading may stop
-/
import ContractBasic.Grammar.ParseTree

namespace ContractBasic

/-- What a message says should have stood at some place. -/
inductive Expectation where
  | spelled (word : String)
  | identifier
  | type
  | commaOrClose
  | expression
  | target
  | lineOrEnd
deriving DecidableEq, Repr

namespace Expectation

/-- The words of a message for an expectation. -/
def describe : Expectation → String
  | spelled word => "`" ++ word ++ "`"
  | identifier => "identifier"
  | type => "type `Uint64` or `String`"
  | commaOrClose => "`,` or `)`"
  | expression => "expression"
  | target => "line number"
  | lineOrEnd => "line number or `End Function`"

end Expectation

namespace Grammar

open ParseTree

/-- The place of an operand that is still to come: the chain to its left with the operator after
it, and whether a `!` stands before the operand. -/
structure Slot where
  left : Option (Expr × Operator)
  negated : Bool
deriving Repr

namespace Slot

/-- The place of the first operand of a chain. -/
def first : Slot := ⟨none, false⟩

/-- The place of the operand after operator `o`. -/
def after (e : Expr) (o : Operator) : Slot := ⟨some (e, o), false⟩

/-- The chain with the awaited operand put in its place. -/
def fill (s : Slot) (primary : Expr) : Expr :=
  let operand := if s.negated then .not primary else primary
  match s.left with
  | none => operand
  | some (e, o) => e.join o operand

end Slot

/-- A parenthesis that is still open, with the place of the operand it belongs to. -/
inductive Enclosure where
  | paren (slot : Slot)
  | call (slot : Slot) (name : String) (args : List Expr)
deriving Repr

/-- Where the reading of an expression is, inside its innermost enclosure. -/
inductive Spot where
  /-- Before an operand. -/
  | operand (slot : Slot)
  /-- After a name, which a parenthesis would make the name of a call. -/
  | named (slot : Slot) (name : String)
  /-- After the parenthesis that opens a call. -/
  | called (slot : Slot) (name : String)
  /-- After a whole chain of operands. -/
  | chain (e : Expr)
deriving Repr

/-- The reading of an expression: the enclosures around the current place, innermost first. -/
structure ExprReading where
  enclosures : List Enclosure
  spot : Spot
deriving Repr

namespace ExprReading

/-- Before an expression. -/
def start : ExprReading := ⟨[], .operand .first⟩

/-- The reading after a token where an operand is awaited. -/
def stepOperand (es : List Enclosure) (slot : Slot) : Token → Option ExprReading
  | .number n => some ⟨es, .chain (slot.fill (.number n))⟩
  | .text s => some ⟨es, .chain (slot.fill (.text s))⟩
  | .word w => some ⟨es, .named slot w⟩
  | .lparen => some ⟨.paren slot :: es, .operand .first⟩
  | .operator (.bitwise .not) =>
    if slot.negated then none else some ⟨es, .operand { slot with negated := true }⟩
  | _ => none

/-- The reading after a token that follows a whole chain. -/
def stepChain (es : List Enclosure) (e : Expr) (t : Token) : Option ExprReading :=
  match t, es with
  | .operator o, _ => if o.isUnary then none else some ⟨es, .operand (.after e o)⟩
  | .rparen, .paren slot :: rest => some ⟨rest, .chain (slot.fill (.paren e))⟩
  | .rparen, .call slot f args :: rest => some ⟨rest, .chain (slot.fill (.call f (args ++ [e])))⟩
  | .comma, .call slot f args :: rest =>
    some ⟨.call slot f (args ++ [e]) :: rest, .operand .first⟩
  | _, _ => none

/-- The reading after one more token, if the token can stand there. -/
def step (r : ExprReading) (t : Token) : Option ExprReading :=
  match r.spot with
  | .operand slot => stepOperand r.enclosures slot t
  | .chain e => stepChain r.enclosures e t
  | .named slot n =>
    if t = .lparen then some ⟨r.enclosures, .called slot n⟩
    else stepChain r.enclosures (slot.fill (.name n)) t
  | .called slot n =>
    if t = .rparen then some ⟨r.enclosures, .chain (slot.fill (.call n []))⟩
    else stepOperand (.call slot n [] :: r.enclosures) .first t

/-- The expression read so far, if it may end here. -/
def value? (r : ExprReading) : Option Expr :=
  match r.enclosures, r.spot with
  | [], .chain e => some e
  | [], .named slot n => some (slot.fill (.name n))
  | _, _ => none

/-- What should follow, where `after` should follow the expression. -/
def expected (r : ExprReading) (after : Expectation) : Expectation :=
  match r.spot, r.enclosures with
  | .operand _, _ | .called _ _, _ => .expression
  | _, [] => after
  | _, .paren _ :: _ => .spelled ")"
  | _, .call _ _ _ :: _ => .commaOrClose

end ExprReading

end Grammar

end ContractBasic
