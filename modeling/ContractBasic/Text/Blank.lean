/-
Blank characters and trimming.

Blanks separate tokens and are trimmed from comments.  They are the characters with the Unicode
property `White_Space`; this is wider than the blanks of the core library, which knows the four
ASCII ones only.

* `isBlank` — membership in the property
* `trim` — a text without its leading and trailing blanks
-/

namespace ContractBasic.Text

/-- The first and last code point of each range of the Unicode property `White_Space`. -/
def blankRanges : List (Nat × Nat) :=
  [(0x09, 0x0D), (0x20, 0x20), (0x85, 0x85), (0xA0, 0xA0), (0x1680, 0x1680), (0x2000, 0x200A),
    (0x2028, 0x2029), (0x202F, 0x202F), (0x205F, 0x205F), (0x3000, 0x3000)]

/-- Whether a character has the Unicode property `White_Space`. -/
def isBlank (c : Char) : Bool :=
  blankRanges.any fun (first, last) => first ≤ c.toNat && c.toNat ≤ last

/-- A text without its trailing blanks. -/
def trimRight (cs : List Char) : List Char :=
  (cs.reverse.dropWhile isBlank).reverse

/-- A text without its leading and trailing blanks. -/
def trim (cs : List Char) : List Char :=
  trimRight (cs.dropWhile isBlank)

end ContractBasic.Text
