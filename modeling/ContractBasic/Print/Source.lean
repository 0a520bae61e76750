/-
Programs as source text.

Each function starts with its heading and puts every item on a line of its own, after its number;
a comment stands behind the item on its line, or opens the line if nothing stands there.  Operations
inside operations are put in parentheses, whatever the operators; the outermost one never is.

* `Expression.pieces`, `Routine.pieces`, `Program.pieces` — what is written
* `Program.source` — the text
-/
import ContractBasic.Print.Comment
import ContractBasic.Program.Lines

namespace ContractBasic

/-- Lists of pieces with `separator` between them. -/
def Piece.join (separator : List Piece) (parts : List (List Piece)) : List Piece :=
  (parts.intersperse separator).flatten

/-! ### Expressions -/

mutual

/-- An expression; `nested` says that it is an operand. -/
def Expression.pieces (l : Layout) (nested : Bool) : Expression → List Piece
  | .value (.uint64 n) => [.number n]
  | .value (.string s) => [.token (.text s)]
  | .name n => [.word n]
  | .call f args =>
    [.word f, .token .lparen] ++ Piece.join l.comma (Expression.piecesOf l false args) ++
      [.token .rparen]
  | .operation o operands _ =>
    let symbol := Piece.token (.operator o)
    let body :=
      match Expression.piecesOf l true operands with
      | [operand] => symbol :: l.gap ++ operand
      | parts => Piece.join (l.gap ++ symbol :: l.gap) parts
    if nested then .token .lparen :: body ++ [.token .rparen] else body

/-- Each of several expressions. -/
def Expression.piecesOf (l : Layout) (nested : Bool) : List Expression → List (List Piece)
  | [] => []
  | e :: es => Expression.pieces l nested e :: Expression.piecesOf l nested es

end

/-! ### Lines -/

/-- A jump. -/
def jumpPieces (target : UInt64) : List Piece :=
  [.word "GOTO", .space, .number target]

/-- A declaration. -/
def dimPieces (l : Layout) (names : List String) (type : ValueType) : List Piece :=
  [.word "DIM", .space] ++ Piece.join l.comma (names.map fun n => [.word n]) ++
    [.space, .word "AS", .space, .word type.keyword]

/-- What a statement writes behind its line number and a tabulator; comments and empty lines write
nothing there. -/
def StatementKind.body (l : Layout) : StatementKind → List Piece
  | .result e => .word "RETURN" :: .space :: e.pieces l false
  | .evaluate e => e.pieces l false
  | .branch c n otherwise =>
    [.word "IF", .space] ++ c.pieces l false ++ [.space, .word "THEN", .space] ++ jumpPieces n ++
      match otherwise with
      | some m => [.space, .word "ELSE", .space] ++ jumpPieces m
      | none => []
  | .dim n type => dimPieces l [n] type
  | .assign n e =>
    [.word "LET", .space, .word n, .space, .token .assign, .space] ++ e.pieces l false
  | .goto n => jumpPieces n
  | .noOp | .comment _ => []

/-- A line number at the start of its line. -/
def linePieces (l : Layout) (line : UInt64) : List Piece :=
  l.lineStart ++ [.number line]

/-- Whether an item is a comment on a line. -/
def Item.isCommentOn (line : UInt64) : Item → Bool
  | .single ⟨n, .comment _⟩ => n = line
  | _ => false

/-- An item.  A comment goes behind the item before it if `open?` is its line; `followed` says that
one more comment stands behind it. -/
def Item.pieces (l : Layout) (open? : Option UInt64) (followed : Bool) : Item → List Piece
  | .dims n names type => linePieces l n ++ .tab :: dimPieces l names type
  | .single ⟨n, .comment text⟩ =>
    (if open? = some n then [] else linePieces l n) ++ l.commentStart ++ commentPieces text followed
  | .single ⟨n, .noOp⟩ => linePieces l n
  | .single ⟨n, kind⟩ => linePieces l n ++ .tab :: kind.body l

/-- Items in order; `open?` is the line of the item before them. -/
def itemsPieces (l : Layout) (open? : Option UInt64) : List Item → List Piece
  | [] => []
  | i :: rest =>
    let followed := (rest.head?.map (Item.isCommentOn i.line)).getD false
    i.pieces l open? followed ++ itemsPieces l (some i.line) rest

/-! ### Functions and programs -/

/-- The first line of a function. -/
def Routine.heading (l : Layout) (r : Routine) : List Piece :=
  let params := r.params.map fun p => [.word p.name, .space, .word p.type.keyword]
  [.word "Function", .space, .word r.name, .token .lparen] ++ Piece.join l.comma params ++
    [.token .rparen, .space, .word r.returnType.keyword]

/-- A function, with its comments and empty lines if `comments` is set. -/
def Routine.pieces (l : Layout) (comments : Bool) (r : Routine) : List Piece :=
  let leading := if comments then r.comments else []
  let written := r.statements.filter fun s => comments || s.kind.isExecutable
  leading.flatMap (fun text => commentPieces text false ++ [.newline]) ++ r.heading l ++
    itemsPieces l none (Item.ofStatements written) ++ [.newline, .word "End", .space, .word "Function"]

/-- The comments that stand with no function. -/
def headerPieces (headers : List String) : List Piece :=
  Piece.join [.newline] (headers.map fun text => commentPieces text false)

/-- A program. -/
def Program.pieces (l : Layout) (comments : Bool) (p : Program) : List Piece :=
  let trailing := if comments ∧ p.headers ≠ [] then [headerPieces p.headers] else []
  Piece.join l.separator (p.routines.map (Routine.pieces l comments) ++ trailing)

/-- The source text of a program. -/
def Program.source (l : Layout) (comments : Bool) (p : Program) : String :=
  Piece.render (p.pieces l comments)

end ContractBasic
