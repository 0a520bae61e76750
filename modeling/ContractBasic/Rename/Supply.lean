/-
A supply of short names.

A short name is a letter for the kind of the declaration and a number in base thirty-six.  Numbers
count up per letter; names that are taken or would read as a word of the language are passed over.

* `shortName` — the short name of a kind and a number
* `firstFree` — the first number that gives a free name
* `Supply.next` — a fresh name
-/
import ContractBasic.SymbolTable
import ContractBasic.Text.Numeral

namespace ContractBasic

/-- Words of the language, in small letters. -/
def reservedWords : List String :=
  ["as", "dim", "else", "end", "function", "goto", "if", "let", "return", "string", "then",
    "uint64"]

/-- The letter that short names of a kind start with. -/
def SymbolKind.letter : SymbolKind → Char
  | .routine | .native => 'f'
  | .param => 'a'
  | .var => 'v'

/-- The short name of a kind and a number. -/
def shortName (kind : SymbolKind) (n : Nat) : String :=
  String.ofList (kind.letter :: Text.numeral 36 n)

/-- The first number from `n` on that gives no blocked name, among as many as `fuel`. -/
def firstFree (blocked : List String) (kind : SymbolKind) : (fuel n : Nat) → Nat
  | 0, n => n
  | fuel + 1, n =>
    if shortName kind n ∈ blocked then firstFree blocked kind fuel (n + 1) else n

/-- The numbers to go on with for each letter, and the names that are taken, in small letters. -/
structure Supply where
  routines : Nat
  params : Nat
  vars : Nat
  taken : List String
deriving DecidableEq, Repr

namespace Supply

/-- The supply that avoids names, whatever their case. -/
def avoiding (names : List String) : Supply := ⟨0, 0, 0, names.map String.toLower⟩

/-- The number to go on with for a kind. -/
def counter (s : Supply) : SymbolKind → Nat
  | .routine | .native => s.routines
  | .param => s.params
  | .var => s.vars

/-- The supply with the number to go on with for a kind replaced. -/
def setCounter (s : Supply) (kind : SymbolKind) (n : Nat) : Supply :=
  match kind with
  | .routine | .native => { s with routines := n }
  | .param => { s with params := n }
  | .var => { s with vars := n }

/-- The names that must not be given out. -/
def blocked (s : Supply) : List String := s.taken ++ reservedWords

/-- A fresh name for a kind and the supply that goes on after it.  Distinct numbers give distinct
names, so one number more than there are blocked names is enough. -/
def next (s : Supply) (kind : SymbolKind) : String × Supply :=
  let n := firstFree s.blocked kind (s.blocked.length + 1) (s.counter kind)
  let name := shortName kind n
  (name, { s.setCounter kind (n + 1) with taken := name :: s.taken })

end Supply

end ContractBasic
