/-
Natural numbers in positional notation.

Numbers in programs are written in base ten and the counters of short names in base thirty-six,
both by the same rule: most significant digit first and no leading zero.

* `numeral` — the digits of a number in a base
* `value` — the number that a row of digits stands for, leading zeros allowed
-/

namespace ContractBasic.Text

/-- The digit of value `n`: `0` to `9`, then `a` to `z`. -/
def digit (n : Nat) : Char :=
  if n < 10 then Char.ofNat ('0'.toNat + n) else Char.ofNat ('a'.toNat + (n - 10))

/-- The digits of `n` in a base of at least two. -/
def numeral (base n : Nat) : List Char :=
  if _h : 2 ≤ base ∧ base ≤ n then
    numeral base (n / base) ++ [digit (n % base)]
  else
    [digit n]
termination_by n
decreasing_by exact Nat.div_lt_self (by omega) (by omega)

/-- The number a row of decimal digits stands for. -/
def value (digits : List Char) : Nat :=
  digits.foldl (fun n c => 10 * n + (c.toNat - '0'.toNat)) 0

/-- A number in base ten. -/
def decimal (n : Nat) : String :=
  String.ofList (numeral 10 n)

end ContractBasic.Text
