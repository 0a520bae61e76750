/-
Written text as a row of tokens and of the blanks between them.

The printer says which tokens it writes and where blanks go; the characters follow.  Two layouts of
a program differ in their blanks only.

* `Piece.chars` — the characters of a piece
* `Piece.render` — the text of a row of pieces
* `Layout` — where blanks go
-/
import ContractBasic.Token.Basic

namespace ContractBasic

/-- A piece of written text. -/
inductive Piece where
  | token (t : Token)
  | blank (text : String)
deriving DecidableEq, Repr

namespace Piece

/-- The characters of a piece. -/
def chars : Piece → List Char
  | token t => t.spelling.toList
  | blank text => text.toList

/-- The text of a row of pieces. -/
def render (pieces : List Piece) : String :=
  String.ofList (pieces.flatMap chars)

/-- A word. -/
def word (w : String) : Piece := token (.word w)

/-- A number. -/
def number (n : UInt64) : Piece := token (.number n)

/-- A single space. -/
def space : Piece := blank " "

/-- A line feed. -/
def newline : Piece := blank "\n"

/-- A tabulator. -/
def tab : Piece := blank "\t"

end Piece

/-- Where blanks go.  The compact layout has those alone that keep words and numbers apart. -/
inductive Layout where
  | compact
  | spaced
deriving DecidableEq, Repr

namespace Layout

/-- The blank around an operator. -/
def gap : Layout → List Piece
  | compact => []
  | spaced => [.space]

/-- The comma of a list. -/
def comma : Layout → List Piece
  | compact => [.token .comma]
  | spaced => [.token .comma, .space]

/-- What stands before a line number. -/
def lineStart : Layout → List Piece
  | compact => [.newline]
  | spaced => [.newline, .tab]

/-- What stands before a comment that follows on a line. -/
def commentStart : Layout → List Piece
  | compact => []
  | spaced => [.tab]

/-- What stands between functions. -/
def separator : Layout → List Piece
  | compact => [.newline]
  | spaced => [.newline, .newline]

end Layout

end ContractBasic
