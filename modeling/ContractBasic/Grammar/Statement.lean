/-
Reading a statement, one token at a time.

Words are keywords by position and in any case of letters; everywhere else the same words are names.
A statement has no terminator: it is over where the next line number or the end of the function
stands and nothing more is owed.

* `StmtReading.step` — the reading after one more token, if the token can stand there
* `StmtReading.whole?` — the statement read so far, if it may end here; no statement at all may too
-/
import ContractBasic.Grammar.Expression

namespace ContractBasic

/-- Whether a token is a word that spells the keyword `k`, given in capitals, in any case. -/
def Token.isKeyword (k : String) : Token → Bool
  | .word w => w.toUpper = k
  | _ => false

namespace Grammar

open ParseTree

/-- What an expression is read for. -/
inductive Purpose where
  | assign (name : String)
  | condition
  | result
  | evaluate
deriving DecidableEq, Repr

/-- Where the reading of a statement is. -/
inductive StmtReading where
  /-- Before the first token. -/
  | start
  /-- After `DIM`. -/
  | dim
  /-- After a comma between declared names. -/
  | dimComma (names : List String)
  /-- After a declared name. -/
  | dimName (names : List String)
  /-- After `AS`. -/
  | dimAs (names : List String)
  /-- After `LET`. -/
  | assign
  /-- After the name that is assigned to. -/
  | assignName (name : String)
  /-- Inside an expression, or at its end. -/
  | expr (purpose : Purpose) (reading : ExprReading)
  /-- After the `GOTO` of a statement of its own. -/
  | goto
  /-- After `THEN`. -/
  | branchThen (condition : Expr)
  /-- After the `GOTO` that follows `THEN`. -/
  | thenGoto (condition : Expr)
  /-- After the target of `THEN GOTO`, where `ELSE` may follow. -/
  | thenTarget (condition : Expr) (target : UInt64)
  /-- After `ELSE`. -/
  | branchElse (condition : Expr) (target : UInt64)
  /-- After the `GOTO` that follows `ELSE`. -/
  | elseGoto (condition : Expr) (target : UInt64)
  /-- After a statement to which nothing can be added. -/
  | done (statement : Stmt)
deriving Repr

namespace StmtReading

/-- The keywords that open a statement, with the reading after each. -/
def openers : List (String × StmtReading) :=
  [("DIM", .dim), ("LET", .assign), ("GOTO", .goto), ("IF", .expr .condition .start),
    ("RETURN", .expr .result .start)]

/-- The reading after the first token: a keyword that opens a statement, or the first token of an
expression. -/
def stepStart (t : Token) : Option StmtReading :=
  let evaluate := (ExprReading.start.step t).map (.expr .evaluate)
  match t with
  | .word w => (openers.lookup w.toUpper).or evaluate
  | _ => evaluate

/-- The reading after one more token, if the token can stand there and belongs to the statement. -/
def step (r : StmtReading) (t : Token) : Option StmtReading :=
  match r, t with
  | start, t => stepStart t
  | dim, .word w => some (dimName [w])
  | dimComma names, .word w => some (dimName (names ++ [w]))
  | dimName names, t =>
    if t = .comma then some (dimComma names)
    else if t.isKeyword "AS" then some (dimAs names)
    else none
  | dimAs names, .word w => (ValueType.ofKeyword? w).map fun type => done (.dim names type)
  | assign, .word w => some (assignName w)
  | assignName n, .assign => some (expr (.assign n) .start)
  | expr purpose e, t =>
    match e.step t with
    | some e => some (expr purpose e)
    | none =>
      if purpose = .condition ∧ t.isKeyword "THEN" then e.value?.map branchThen else none
  | goto, .number n => some (done (.goto n))
  | branchThen c, t => if t.isKeyword "GOTO" then some (thenGoto c) else none
  | thenGoto c, .number n => some (thenTarget c n)
  | thenTarget c n, t => if t.isKeyword "ELSE" then some (branchElse c n) else none
  | branchElse c n, t => if t.isKeyword "GOTO" then some (elseGoto c n) else none
  | elseGoto c n, .number m => some (done (.branch c n (some m)))
  | _, _ => none

/-- The statement read so far, where the line may end: `some none` before the first token. -/
def whole? : StmtReading → Option (Option Stmt)
  | start => some none
  | expr .result e => e.value?.map fun v => some (.result v)
  | expr .evaluate e => e.value?.map fun v => some (.evaluate v)
  | expr (.assign n) e => e.value?.map fun v => some (.assign n v)
  | thenTarget c n => some (some (.branch c n none))
  | done s => some (some s)
  | _ => none

/-- What should have stood where an unfit token stands. -/
def expected : StmtReading → Expectation
  | start => .expression
  | dim | dimComma _ | assign => .identifier
  | dimName _ => .spelled "AS"
  | dimAs _ => .type
  | assignName _ => .spelled "="
  | expr .condition e => e.expected (.spelled "THEN")
  | expr _ e => e.expected .lineOrEnd
  | branchThen _ | branchElse _ _ => .spelled "GOTO"
  | goto | thenGoto _ | elseGoto _ _ => .target
  | thenTarget _ _ | done _ => .lineOrEnd

/-- What should have stood where the text ends. -/
def expectedAtEnd : StmtReading → Expectation
  | start => .lineOrEnd
  | dim => .spelled "AS"
  | r => r.expected

end StmtReading

end Grammar

end ContractBasic
