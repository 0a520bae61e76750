/-
The lexer: source text into placed tokens.

Tokens are read one at a time, each as long as it can be; blanks between them are dropped and
comments are kept.  `scan` reads the token that starts at a character and says how far it reaches,
so that the loop over the text needs to know nothing about the tokens.

* `scan` — the token at the head of a text
* `Lexing` — the tokens of a text, up to the fault that stopped the reading, if any
* `lex` — the tokens of a whole text
-/
import ContractBasic.Text.Blank
import ContractBasic.Text.Position
import ContractBasic.Token.Basic

namespace ContractBasic

/-- Why no token can be read at some place. -/
inductive LexicalFault where
  /-- No token starts with this character. -/
  | unexpected (c : Char)
  /-- A quote has no partner. -/
  | openText
  /-- A block comment is not closed. -/
  | openComment
  /-- A row of digits stands for a number of more than 64 bits. -/
  | tooLarge (digits : String)
deriving DecidableEq, Repr

/-! ### One token -/

/-- Whether a character continues a word. -/
def isWordChar (c : Char) : Bool :=
  c.isAlphanum || c = '_'

/-- The symbol that starts with `c` before `next`, and how many characters follow `c` in it.
The doubled forms of `&` and `|` mean the same as the single ones. -/
def symbolAt? (c : Char) (next : Option Char) : Option (Token × Nat) :=
  match c with
  | '(' => some (.lparen, 0)
  | ')' => some (.rparen, 0)
  | ',' => some (.comma, 0)
  | '+' => some (.operator (.arithmetic .add), 0)
  | '-' => some (.operator (.arithmetic .sub), 0)
  | '*' => some (.operator (.arithmetic .mul), 0)
  | '/' => some (.operator (.arithmetic .div), 0)
  | '%' => some (.operator (.arithmetic .mod), 0)
  | '^' => some (.operator (.bitwise .xor), 0)
  | '&' => some (.operator (.bitwise .and), if next = some '&' then 1 else 0)
  | '|' => some (.operator (.bitwise .or), if next = some '|' then 1 else 0)
  | '=' => if next = some '=' then some (.operator (.comparison .eq), 1) else some (.assign, 0)
  | '!' =>
    if next = some '=' then some (.operator (.comparison .ne), 1)
    else some (.operator (.bitwise .not), 0)
  | '<' =>
    if next = some '=' then some (.operator (.comparison .le), 1)
    else if next = some '<' then some (.operator (.bitwise .shl), 1)
    else some (.operator (.comparison .lt), 0)
  | '>' =>
    if next = some '=' then some (.operator (.comparison .ge), 1)
    else if next = some '>' then some (.operator (.bitwise .shr), 1)
    else some (.operator (.comparison .gt), 0)
  | _ => none

/-- How many characters there are up to the end of the first `*/`. -/
def blockEnd? : List Char → Option Nat
  | '*' :: '/' :: _ => some 2
  | _ :: cs => (blockEnd? cs).map (· + 1)
  | [] => none

/-- How many characters there are up to and including the first quote. -/
def quoteEnd? : List Char → Option Nat
  | '"' :: _ => some 1
  | _ :: cs => (quoteEnd? cs).map (· + 1)
  | [] => none

/-- The token that starts with `c` before `cs`, and how many characters of `cs` belong to it. -/
def scan (c : Char) (cs : List Char) : Except LexicalFault (Token × Nat) :=
  if c = '/' ∧ cs.head? = some '/' then
    let body := cs.takeWhile (· ≠ '\n')
    .ok (.comment (String.ofList (c :: body)), body.length)
  else if c = '/' ∧ cs.head? = some '*' then
    match blockEnd? cs.tail with
    | some n => .ok (.comment (String.ofList (c :: cs.take (n + 1))), n + 1)
    | none => .error .openComment
  else if c = '"' then
    match quoteEnd? cs with
    | some n => .ok (.text (String.ofList (cs.take (n - 1))), n)
    | none => .error .openText
  else if c.isDigit then
    let digits := c :: cs.takeWhile Char.isDigit
    let n := Text.value digits
    if n < UInt64.size then
      .ok (.number (UInt64.ofNat n), digits.length - 1)
    else
      .error (.tooLarge (String.ofList digits))
  else if c.isAlpha then
    let rest := cs.takeWhile isWordChar
    .ok (.word (String.ofList (c :: rest)), rest.length)
  else
    match symbolAt? c cs.head? with
    | some symbol => .ok symbol
    | none => .error (.unexpected c)

/-! ### Whole texts -/

/-- The tokens read from a text in order, and the fault that ended the reading early. -/
structure Lexing where
  tokens : List (Placed Token)
  fault : Option (Placed LexicalFault)
deriving DecidableEq, Repr

/-- The tokens of a text whose first character stands at byte `offset`. -/
def lexFrom (offset : Nat) : List Char → Lexing
  | [] => ⟨[], none⟩
  | c :: cs =>
    if Text.isBlank c then
      lexFrom (offset + c.utf8Size) cs
    else
      match scan c cs with
      | .error fault => ⟨[], some ⟨offset, fault⟩⟩
      | .ok (token, n) =>
        let next := offset + c.utf8Size + Text.byteSize (cs.take n)
        let later := lexFrom next (cs.drop n)
        ⟨⟨offset, token⟩ :: later.tokens, later.fault⟩
termination_by cs => cs.length
decreasing_by all_goals simp only [List.length_drop, List.length_cons]; omega

/-- The tokens of a source text. -/
def lex (source : List Char) : Lexing :=
  lexFrom 0 source

end ContractBasic
