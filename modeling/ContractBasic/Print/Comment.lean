/-
Comments as they are written.

A text is written as a line comment where it can be.  A text of several lines, or one with another
comment behind it on its line, becomes a block comment, unless it holds the end of a block comment.
Then a single line ends with a line feed instead, and only a text of several lines is changed: the
ends of block comments in it are split by a space.

* `commentPieces` — the comment of a text
-/
import ContractBasic.Print.Piece
import ContractBasic.Token.Lexer

namespace ContractBasic

/-- A text with a space put into every end of a block comment. -/
def splitBlockEnds : List Char → List Char
  | '*' :: '/' :: cs => '*' :: ' ' :: '/' :: splitBlockEnds cs
  | c :: cs => c :: splitBlockEnds cs
  | [] => []

/-- A text as a line comment. -/
def lineComment (text : List Char) : Piece :=
  .token (.comment (String.ofList ('/' :: '/' :: ' ' :: text)))

/-- A text as a block comment. -/
def blockComment (text : List Char) : Piece :=
  .token (.comment (String.ofList ('/' :: '*' :: ' ' :: text ++ [' ', '*', '/'])))

/-- The comment of a text; `followed` says that another comment stands behind it on its line. -/
def commentPieces (text : String) (followed : Bool) : List Piece :=
  let cs := text.toList
  let severalLines := '\n' ∈ cs
  if (blockEnd? cs).isSome then
    if severalLines then [blockComment (splitBlockEnds cs)]
    else if followed then [lineComment cs, .newline]
    else [lineComment cs]
  else if severalLines ∨ followed then
    [blockComment cs]
  else
    [lineComment cs]

end ContractBasic
