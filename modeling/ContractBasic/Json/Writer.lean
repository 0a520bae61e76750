/-
Writing JSON text.

* `Json.compact` — without blanks
* `Json.pretty` — every item and field on a line of its own, two spaces deeper than what holds it
-/
import ContractBasic.Json.Basic
import ContractBasic.Text.Numeral

namespace ContractBasic.Json

/-- Two hexadecimal digits. -/
def hexByte (n : Nat) : String :=
  String.ofList [Text.digit (n / 16 % 16), Text.digit (n % 16)]

/-- A character of a text between quotes; only quotes, backslashes and control characters need an
escape. -/
def escaped (c : Char) : String :=
  match c with
  | '"' => "\\\""
  | '\\' => "\\\\"
  | '\x08' => "\\b"
  | '\x0c' => "\\f"
  | '\n' => "\\n"
  | '\r' => "\\r"
  | '\t' => "\\t"
  | c => if c.toNat < 0x20 then "\\u00" ++ hexByte c.toNat else String.singleton c

/-- A text between quotes. -/
def quote (s : String) : String :=
  "\"" ++ String.join (s.toList.map escaped) ++ "\""

/-- The blanks before a value on a line of its own; `level?` is how deep it stands. -/
def lineBreak (level? : Option Nat) : String :=
  match level? with
  | some n => String.ofList ('\n' :: List.replicate (2 * n) ' ')
  | none => ""

/-- Written parts between brackets. -/
def bracketed (level? : Option Nat) (first last : Char) (parts : List String) : String :=
  match parts with
  | [] => String.ofList [first, last]
  | _ =>
    let inner := lineBreak (level?.map (· + 1))
    String.singleton first ++ inner ++ String.intercalate ("," ++ inner) parts ++
      lineBreak level? ++ String.singleton last

mutual

/-- A value that stands `level?` deep, or all on one line. -/
def write (level? : Option Nat) : Json → String
  | null | garbled => "null"
  | bool b => if b then "true" else "false"
  | nat n => Text.decimal n
  | number literal => literal
  | string s => quote s
  | array items => bracketed level? '[' ']' (writeItems (level?.map (· + 1)) items)
  | object fields => bracketed level? '{' '}' (writeFields (level?.map (· + 1)) fields)

/-- The items of an array. -/
def writeItems (level? : Option Nat) : List Json → List String
  | [] => []
  | j :: js => write level? j :: writeItems level? js

/-- The fields of an object. -/
def writeFields (level? : Option Nat) : List (String × Json) → List String
  | [] => []
  | (k, j) :: fs =>
    let colon := if level?.isSome then ": " else ":"
    (quote k ++ colon ++ write level? j) :: writeFields level? fs

end

/-- A value on one line. -/
def compact (j : Json) : String := j.write none

/-- A value over several lines. -/
def pretty (j : Json) : String := j.write (some 0)

end ContractBasic.Json
