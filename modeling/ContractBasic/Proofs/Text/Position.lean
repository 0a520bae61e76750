/-
Places between the characters of a text.

A byte offset that is the size of a first part of a text is the place behind this part.

* `Text.splitAtByte_append` — a text is split there into the part and the rest
* `Position.offset_locate` — the position of the place has the same offset
-/
import ContractBasic.Text.Position

namespace ContractBasic

/-- A text is split behind a part by the size of the part. -/
theorem Text.splitAtByte_append (before after : List Char) :
    splitAtByte (byteSize before) (before ++ after) = (before, after) := by
  induction before with
  | nil =>
    cases after with
    | nil => rfl
    | cons c cs => rfl
  | cons c before ih =>
    have hpos : byteSize (c :: before) ≠ 0 := Nat.pos_iff_ne_zero.mp (byteSize_pos (List.cons_ne_nil c before))
    have hrest : byteSize (c :: before) - c.utf8Size = byteSize before := Nat.add_sub_cancel_left ..
    rw [List.cons_append, splitAtByte, if_neg hpos, hrest, ih]

namespace Position

/-- Behind some characters the offset has grown by their size. -/
theorem offset_foldl_advance (cs : List Char) (p : Position) :
    (cs.foldl advance p).offset = p.offset + Text.byteSize cs := by
  induction cs generalizing p with
  | nil => rfl
  | cons c cs ih =>
    have hadvance : (p.advance c).offset = p.offset + c.utf8Size := by
      unfold advance
      split <;> rfl
    rw [List.foldl_cons, ih, hadvance, Text.byteSize, Nat.add_assoc]

/-- The position of a place between two characters has the offset of the place. -/
theorem offset_locate (before after : List Char) :
    (locate (before ++ after) (Text.byteSize before)).offset = Text.byteSize before := by
  rw [locate, Text.splitAtByte_append, offset_foldl_advance]
  exact Nat.zero_add _

end Position

end ContractBasic
