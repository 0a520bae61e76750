/-
The parser: a source text into its tree.

The parser is a machine that takes the tokens one by one.  Its state holds the functions read so far
and the place inside the current one; which tokens fit, what a message asks for and whom a comment
belongs to all follow from the place.  A token that does not fit ends the reading.

* `Place.step` — the place after one more token, if it fits there
* `Place.comment` — the place after a comment, which fits everywhere
* `parse` — the tree of a text, or the first fault in it
-/
import ContractBasic.Grammar.Statement
import ContractBasic.Token.Lexer

namespace ContractBasic

/-- Why a text has no tree. -/
inductive ParseFault where
  | lexical (fault : LexicalFault)
  /-- `found` is `none` at the end of the text. -/
  | mismatch (expected : Expectation) (found : Option Token)
deriving DecidableEq, Repr

namespace Grammar

open ParseTree

/-! ### Places -/

/-- What has been read of the first line of a function. -/
structure Heading where
  name : String
  offset : Nat
  params : List Param
  comments : List Comment
deriving DecidableEq, Repr

/-- Where the parser is.  Comments of a parameter are `held` until the parameter is whole. -/
inductive Place where
  /-- Between functions. -/
  | outside (leading : List Comment)
  /-- After the word `Function`. -/
  | opened (comments : List Comment)
  /-- After the name of the function. -/
  | named (h : Heading)
  /-- After the parenthesis that opens the parameter list. -/
  | params (h : Heading) (held : List Comment)
  /-- After a comma of the parameter list. -/
  | paramComma (h : Heading) (held : List Comment)
  /-- After the name of a parameter. -/
  | paramName (h : Heading) (held : List Comment) (name : String)
  /-- After the type of a parameter. -/
  | paramType (h : Heading) (held : List Comment) (name : String) (type : ValueType)
  /-- After the parameter list. -/
  | signature (h : Heading)
  /-- Before the first line. -/
  | body (routine : Routine)
  /-- Inside a line. -/
  | line (routine : Routine) (current : Line) (reading : StmtReading)
  /-- After the word `End`. -/
  | ended (routine : Routine) (leading : List Comment)
deriving Repr

/-- A heading with one more parameter. -/
def Heading.addParam (h : Heading) (p : Param) : Heading :=
  { h with params := h.params ++ [p] }

/-- A heading with more comments. -/
def Heading.addComments (h : Heading) (cs : List Comment) : Heading :=
  { h with comments := h.comments ++ cs }

/-- The function that starts with a heading. -/
def Heading.routine (h : Heading) (type : ValueType) : Routine :=
  ⟨h.name, h.offset, h.params, type, h.comments, []⟩

/-- A function with one more line. -/
def addLine (r : Routine) (l : Line) : Routine :=
  { r with lines := r.lines ++ [l] }

namespace Place

/-- The place after a token that opens a line or ends the function. -/
def stepBody (routine : Routine) (t : Placed Token) : Option Place :=
  match t.item with
  | .number n => some (line routine ⟨n, t.offset, none, []⟩ .start)
  | .word "End" => some (ended routine [])
  | _ => none

/-- The place after one more token, if it fits; the end of a function is for `State.step`. -/
def step (p : Place) (t : Placed Token) : Option Place :=
  match p, t.item with
  | outside leading, .word "Function" => some (opened leading)
  | opened cs, .word w => some (named ⟨w, t.offset, [], cs⟩)
  | named h, .lparen => some (params h [])
  | params h held, .rparen => some (signature (h.addComments held))
  | params h held, .word w => some (paramName h held w)
  | paramComma h held, .word w => some (paramName h held w)
  | paramName h held n, .word w => (ValueType.ofKeyword? w).map (paramType h held n)
  | paramType h held n type, .comma => some (paramComma (h.addParam ⟨n, type, held⟩) [])
  | paramType h held n type, .rparen => some (signature (h.addParam ⟨n, type, held⟩))
  | signature h, .word w => (ValueType.ofKeyword? w).map fun type => body (h.routine type)
  | body routine, _ => stepBody routine t
  | line routine l reading, item =>
    let ended := reading.whole?.bind fun s => stepBody (addLine routine { l with statement := s }) t
    ended.or ((reading.step item).map (line routine l))
  | _, _ => none

/-- The place after a comment. -/
def comment (c : Comment) : Place → Place
  | outside leading => outside (leading ++ [c])
  | opened cs => opened (cs ++ [c])
  | named h => named (h.addComments [c])
  | params h held => params h (held ++ [c])
  | paramComma h held => paramComma h (held ++ [c])
  | paramName h held n => paramName h (held ++ [c]) n
  | paramType h held n type => paramType h (held ++ [c]) n type
  | signature h => signature (h.addComments [c])
  | body routine => body { routine with comments := routine.comments ++ [c] }
  | line routine l reading => line routine { l with comments := l.comments ++ [c] } reading
  | ended routine leading => ended routine (leading ++ [c])

/-- What should have stood where an unfit token stands. -/
def expected : Place → Expectation
  | outside _ => .spelled "Function"
  | opened _ => .identifier
  | named _ => .spelled "("
  | params _ _ | paramComma _ _ => .identifier
  | paramName _ _ _ => .type
  | paramType _ _ _ _ => .commaOrClose
  | signature _ => .type
  | body _ => .lineOrEnd
  | line _ _ reading => reading.expected
  | ended _ _ => .spelled "Function"

/-- What should have stood where the text ends. -/
def expectedAtEnd : Place → Expectation
  | line _ _ reading => reading.expectedAtEnd
  | p => p.expected

end Place

/-! ### Runs -/

/-- The functions read so far and the place after them. -/
structure State where
  routines : List Routine
  place : Place
deriving Repr

namespace State

/-- Before the first token. -/
def start : State := ⟨[], .outside []⟩

/-- The state after one more token, if it fits. -/
def step (s : State) (t : Placed Token) : Option State :=
  match t.item, s.place with
  | .comment raw, _ => some { s with place := s.place.comment ⟨t.offset, raw⟩ }
  | .word "Function", .ended routine leading => some ⟨s.routines ++ [routine], .outside leading⟩
  | _, _ => (s.place.step t).map fun p => { s with place := p }

/-- The state after a row of tokens, or the first token that does not fit. -/
def run (s : State) : List (Placed Token) → Except (Placed ParseFault) State
  | [] => .ok s
  | t :: ts =>
    match s.step t with
    | some s => s.run ts
    | none => .error ⟨t.offset, .mismatch s.place.expected (some t.item)⟩

/-- The tree of a text that ends in this state, at byte `offset`. -/
def finish (s : State) (offset : Nat) : Except (Placed ParseFault) ParseTree :=
  match s.place with
  | .outside leading => .ok ⟨s.routines, leading⟩
  | p => .error ⟨offset, .mismatch p.expectedAtEnd none⟩

end State

end Grammar

/-- The tree of a source text.  A fault of the lexer counts before any other. -/
def parse (source : List Char) : Except (Placed ParseFault) ParseTree :=
  match lex source with
  | ⟨_, some fault⟩ => .error ⟨fault.offset, .lexical fault.item⟩
  | ⟨tokens, none⟩ => do
    let final ← Grammar.State.start.run tokens
    final.finish (Text.byteSize source)

end ContractBasic
