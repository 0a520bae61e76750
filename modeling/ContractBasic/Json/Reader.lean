/-
Reading JSON text.

The grammar is the standard's: no comments, no trailing commas, no leading zeros, no bare control
characters in texts, and nothing but blanks after the value.

* `Json.parse?` — the value of a text
-/
import ContractBasic.Json.Basic
import ContractBasic.Text.Numeral

namespace ContractBasic.Json

/-- The text without its leading blanks. -/
def skip (cs : List Char) : List Char :=
  cs.dropWhile fun c => c = ' ' || c = '\t' || c = '\n' || c = '\r'

/-! ### Texts -/

/-- A part of a text between quotes: a character, or a code unit given by its number. -/
inductive TextUnit where
  | char (c : Char)
  | code (n : Nat)

/-- The value of a hexadecimal digit. -/
def hexDigit? (c : Char) : Option Nat :=
  if c.isDigit then some (c.toNat - '0'.toNat)
  else if 'a' ≤ c ∧ c ≤ 'f' then some (c.toNat - 'a'.toNat + 10)
  else if 'A' ≤ c ∧ c ≤ 'F' then some (c.toNat - 'A'.toNat + 10)
  else none

/-- The value of four hexadecimal digits. -/
def hex? (a b c d : Char) : Option Nat := do
  let a ← hexDigit? a
  let b ← hexDigit? b
  let c ← hexDigit? c
  let d ← hexDigit? d
  pure (((a * 16 + b) * 16 + c) * 16 + d)

/-- The character that a letter stands for after a backslash. -/
def escape? : Char → Option Char
  | '"' => some '"'
  | '\\' => some '\\'
  | '/' => some '/'
  | 'b' => some '\x08'
  | 'f' => some '\x0c'
  | 'n' => some '\n'
  | 'r' => some '\r'
  | 't' => some '\t'
  | _ => none

/-- The parts of a text up to its closing quote, and what follows; `read` are those before, last
first. -/
def readUnits (read : List TextUnit) : List Char → Option (List TextUnit × List Char)
  | '"' :: rest => some (read.reverse, rest)
  | '\\' :: 'u' :: a :: b :: c :: d :: rest =>
    match hex? a b c d with
    | some n => readUnits (.code n :: read) rest
    | none => none
  | '\\' :: e :: rest =>
    match escape? e with
    | some c => readUnits (.char c :: read) rest
    | none => none
  | c :: rest => if c.toNat < 0x20 then none else readUnits (.char c :: read) rest
  | [] => none

/-- The characters of a text; two code units may form one. -/
def joinUnits : List TextUnit → Option (List Char)
  | [] => some []
  | .char c :: us => (joinUnits us).map (c :: ·)
  | .code n :: us =>
    if n < 0xD800 ∨ 0xDFFF < n then
      (joinUnits us).map (Char.ofNat n :: ·)
    else
      match us with
      | .code m :: us =>
        if n ≤ 0xDBFF ∧ 0xDC00 ≤ m ∧ m ≤ 0xDFFF then
          let c := Char.ofNat (0x10000 + (n - 0xD800) * 0x400 + (m - 0xDC00))
          (joinUnits us).map (c :: ·)
        else
          none
      | _ => none

/-- The text after an opening quote, `none` if it has no Unicode form, and what follows. -/
def readText (cs : List Char) : Option (Option String × List Char) :=
  (readUnits [] cs).map fun (units, rest) => ((joinUnits units).map String.ofList, rest)

/-! ### Numbers -/

/-- The digits at the head of a text, of which there must be one, and what follows. -/
def readDigits (cs : List Char) : Option (List Char × List Char) :=
  match cs.takeWhile Char.isDigit with
  | [] => none
  | digits => some (digits, cs.dropWhile Char.isDigit)

/-- The fraction at the head of a text, which may be missing, and what follows. -/
def readFraction : List Char → Option (List Char × List Char)
  | '.' :: cs => (readDigits cs).map fun (digits, rest) => ('.' :: digits, rest)
  | cs => some ([], cs)

/-- The exponent at the head of a text, which may be missing, and what follows. -/
def readExponent : List Char → Option (List Char × List Char)
  | c :: cs =>
    if c = 'e' ∨ c = 'E' then
      match cs with
      | s :: rest =>
        if s = '+' ∨ s = '-' then
          (readDigits rest).map fun (digits, rest) => (c :: s :: digits, rest)
        else
          (readDigits cs).map fun (digits, rest) => (c :: digits, rest)
      | [] => none
    else
      some ([], c :: cs)
  | [] => some ([], [])

/-- The number at the head of a text, and what follows. -/
def readNumber (cs : List Char) : Option (Json × List Char) := do
  let (sign, cs) := match cs with
    | '-' :: cs => (['-'], cs)
    | cs => ([], cs)
  let (whole, cs) ← readDigits cs
  if whole.head? = some '0' ∧ whole ≠ ['0'] then
    none
  let (fraction, cs) ← readFraction cs
  let (exponent, cs) ← readExponent cs
  match sign ++ fraction ++ exponent with
  | [] => some (nat (Text.value whole), cs)
  | _ => some (number (String.ofList (sign ++ whole ++ fraction ++ exponent)), cs)

/-! ### Values -/

mutual

/-- The value at the head of a text, and what follows. -/
def readValue : (fuel : Nat) → List Char → Option (Json × List Char)
  | 0, _ => none
  | fuel + 1, cs =>
    match skip cs with
    | 'n' :: 'u' :: 'l' :: 'l' :: rest => some (null, rest)
    | 't' :: 'r' :: 'u' :: 'e' :: rest => some (bool true, rest)
    | 'f' :: 'a' :: 'l' :: 's' :: 'e' :: rest => some (bool false, rest)
    | '"' :: rest =>
      (readText rest).map fun (text?, rest) => ((text?.map string).getD garbled, rest)
    | '[' :: rest =>
      match skip rest with
      | ']' :: rest => some (array [], rest)
      | rest => readItems fuel [] rest
    | '{' :: rest =>
      match skip rest with
      | '}' :: rest => some (object [], rest)
      | rest => readFields fuel [] true rest
    | cs => readNumber cs

/-- The items of an array up to its end, and what follows; `read` are those before, last first. -/
def readItems : (fuel : Nat) → (read : List Json) → List Char → Option (Json × List Char)
  | 0, _, _ => none
  | fuel + 1, read, cs =>
    match readValue fuel cs with
    | none => none
    | some (j, rest) =>
      match skip rest with
      | ',' :: rest => readItems fuel (j :: read) rest
      | ']' :: rest => some (array (j :: read).reverse, rest)
      | _ => none

/-- The fields of an object up to its end, and what follows; `read` are those before, last first,
and `clean` says that all their keys have a Unicode form. -/
def readFields : (fuel : Nat) → (read : List (String × Json)) → (clean : Bool) → List Char →
    Option (Json × List Char)
  | 0, _, _, _ => none
  | fuel + 1, read, clean, cs =>
    match skip cs with
    | '"' :: rest =>
      match readText rest with
      | none => none
      | some (key?, rest) =>
        match skip rest with
        | ':' :: rest =>
          match readValue fuel rest with
          | none => none
          | some (j, rest) =>
            let read := (key?.getD "", j) :: read
            let clean := clean && key?.isSome
            match skip rest with
            | ',' :: rest => readFields fuel read clean rest
            | '}' :: rest => some (if clean then object read.reverse else garbled, rest)
            | _ => none
        | _ => none
    | _ => none

end

/-- The value of a JSON text.  Every second call at least takes a character, which bounds the
calls. -/
def parse? (text : String) : Option Json :=
  let cs := text.toList
  match readValue (2 * cs.length + 2) cs with
  | some (j, rest) => if skip rest = [] then some j else none
  | none => none

end ContractBasic.Json
