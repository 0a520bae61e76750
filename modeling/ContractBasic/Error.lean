/-
What can be wrong with a source text or a program, and how it is reported.

* `Error` — every way in which a text or a program is refused
* `Error.message` — the report in one line
* `Error.render` — the report with the line of the text that it points into
-/
import ContractBasic.Grammar.Parser
import ContractBasic.SymbolTable

namespace ContractBasic

/-- How a name is used in an expression. -/
inductive NameUse where
  | call
  | value
deriving DecidableEq, Repr

/-- What is wrong at a place of a source text. -/
inductive Complaint where
  | fault (fault : ParseFault)
  /-- A complaint in words of its own. -/
  | words (text : String)
deriving DecidableEq, Repr

/-- What is wrong with a source text or a program. -/
inductive Error where
  | grammar (position : Position) (complaint : Complaint)
  /-- A name means nothing where it is used. -/
  | notFound (use : NameUse) (name : String)
  /-- A name means something that cannot be used so. -/
  | misused (use : NameUse) (kind : SymbolKind) (name : String)
  /-- Several statements of a function stand on these lines. -/
  | duplicateLines (routine : String) (lines : List UInt64)
  /-- A statement jumps to a line that its function does not have. -/
  | unknownTarget (routine : String) (line target : UInt64)
deriving DecidableEq, Repr

/-! ### Messages -/

/-- The words for a fault of the lexer. -/
def LexicalFault.message : LexicalFault → String
  | unexpected c => "unexpected character `" ++ String.singleton c ++ "`"
  | openText => "unterminated string literal"
  | openComment => "unterminated block comment"
  | tooLarge digits => "value too large for Uint64: " ++ digits

/-- The words for a fault of the parser. -/
def ParseFault.message : ParseFault → String
  | lexical fault => fault.message
  | mismatch expected found =>
    "expected " ++ expected.describe ++ ", found " ++ (found.map Token.describe).getD Token.describeEnd

/-- The words of a complaint. -/
def Complaint.message : Complaint → String
  | fault f => f.message
  | words text => text

/-- What a name is looked for as. -/
def NameUse.sought : NameUse → String
  | call => "function"
  | value => "name"

/-- What a name is wrongly used as. -/
def NameUse.role : NameUse → String
  | call => "function"
  | value => "value"

namespace Text

/-- A text between quotes. -/
def quoted (s : String) : String := "\"" ++ s ++ "\""

/-- A number in base ten. -/
def ofUInt64 (n : UInt64) : String := decimal n.toNat

/-- A number in base ten, filled up with spaces on the left to three places. -/
def padded (n : Nat) : String :=
  let digits := numeral 10 n
  String.ofList (List.replicate (3 - digits.length) ' ' ++ digits)

end Text

namespace Error

open Text

/-- The report in one line. -/
def message : Error → String
  | grammar p complaint =>
    "line " ++ decimal p.line ++ ", col " ++ decimal p.column ++ ": " ++ complaint.message
  | notFound use name => use.sought ++ " " ++ quoted name ++ " not found"
  | misused use kind name =>
    kind.word ++ " " ++ quoted name ++ " exists but is used as a " ++ use.role
  | duplicateLines routine lines =>
    "found duplicate lines in function " ++ quoted routine ++ " (lines " ++
      String.intercalate ", " (lines.map ofUInt64) ++ ")"
  | unknownTarget routine line target =>
    "function " ++ quoted routine ++ ", line " ++ ofUInt64 line ++ ": GOTO target " ++
      ofUInt64 target ++ " does not exist"

/-- The report, and for an error in the text its place, the line around it and a caret below. -/
def render (e : Error) (source : List Char) : String :=
  let head := "Error: " ++ e.message
  match e with
  | grammar p _ =>
    let caret := String.ofList (List.replicate (p.column - 1) ' ') ++ "^"
    head ++ "\n --> line " ++ decimal p.line ++ ", col " ++ decimal p.column ++ "\n   |\n" ++
      padded p.line ++ "| " ++ String.ofList (lineAt p.offset source) ++ "\n   | " ++ caret
  | _ => head

/-- The error for a fault at a place of a source text. -/
def ofFault (source : List Char) (f : Placed ParseFault) : Error :=
  .grammar (.locate source f.offset) (.fault f.item)

end Error

/-- The tree of a source text, or the error to report. -/
def ParseTree.ofSource (source : String) : Except Error ParseTree :=
  let cs := source.toList
  (parse cs).mapError (Error.ofFault cs)

end ContractBasic
