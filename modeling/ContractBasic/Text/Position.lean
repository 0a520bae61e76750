/-
Places in a source text.

A place is a byte offset into the UTF-8 form of the text; readers want a line and a column.  Lines
end at line feeds only and columns count characters, both from one.

* `Position.locate` — the position of an offset, which is first brought inside the text
* `lineAt` — the line of the text around an offset, without its line feed
-/

namespace ContractBasic

namespace Text

/-- The number of bytes in the UTF-8 form of a text. -/
def byteSize : List Char → Nat
  | [] => 0
  | c :: cs => c.utf8Size + byteSize cs

theorem byteSize_append (cs ds : List Char) : byteSize (cs ++ ds) = byteSize cs + byteSize ds := by
  induction cs with
  | nil => rw [List.nil_append, byteSize, Nat.zero_add]
  | cons c cs ih => rw [List.cons_append, byteSize, byteSize, ih, Nat.add_assoc]

theorem byteSize_pos {cs : List Char} (h : cs ≠ []) : 0 < byteSize cs := by
  cases cs with
  | nil => exact absurd rfl h
  | cons c cs => exact Nat.add_pos_left c.utf8Size_pos (byteSize cs)

/-- The characters that start before byte `offset`, and the others. -/
def splitAtByte (offset : Nat) : List Char → List Char × List Char
  | [] => ([], [])
  | c :: cs =>
    if offset = 0 then
      ([], c :: cs)
    else
      let (before, after) := splitAtByte (offset - c.utf8Size) cs
      (c :: before, after)

/-- The line around byte `offset`, without its line feed. -/
def lineAt (offset : Nat) (source : List Char) : List Char :=
  let (before, after) := splitAtByte offset source
  (before.reverse.takeWhile (· ≠ '\n')).reverse ++ after.takeWhile (· ≠ '\n')

end Text

/-- A place in a source text: its byte offset, and its line and column counted from one. -/
structure Position where
  offset : Nat
  line : Nat
  column : Nat
deriving DecidableEq, Repr

namespace Position

/-- The place of the first character. -/
def start : Position := ⟨0, 1, 1⟩

/-- The place after a character. -/
def advance (p : Position) (c : Char) : Position :=
  if c = '\n' then
    ⟨p.offset + c.utf8Size, p.line + 1, 1⟩
  else
    ⟨p.offset + c.utf8Size, p.line, p.column + 1⟩

/-- The place of byte `offset`; an offset beyond the end is taken as the end. -/
def locate (source : List Char) (offset : Nat) : Position :=
  (Text.splitAtByte offset source).1.foldl advance start

end Position

end ContractBasic
