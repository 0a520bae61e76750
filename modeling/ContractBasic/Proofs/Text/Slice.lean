/-
Parts of a text between bytes.

A byte offset can fall inside a character.  A text can be cut at the boundaries only, the offsets at which
a character starts or the text ends; here it is cut with a check, and the check fails elsewhere.

* `Text.IsBoundary` — the boundaries of a text
* `Text.cut?`, `Text.slice?` — a text cut at a byte, and the part between two bytes
* `Text.slice?_eq_some_iff` — there is such a part exactly between two boundaries in order
* `Text.firstFeed?`, `Text.lastFeed?` — the bytes of the first and of the last line feed
-/
import ContractBasic.Proofs.Text.Position

namespace ContractBasic.Text

/-- Whether a character of a text starts at byte `offset`, or the text ends there. -/
def IsBoundary (source : List Char) (offset : Nat) : Prop :=
  ∃ before after, source = before ++ after ∧ offset = byteSize before

theorem IsBoundary.le {source : List Char} {offset : Nat} (h : IsBoundary source offset) :
    offset ≤ byteSize source := by
  obtain ⟨before, after, rfl, rfl⟩ := h
  rw [byteSize_append]
  omega

/-! ### Cuts -/

/-- A text cut at byte `offset`, unless this falls inside a character or behind the text. -/
def cut? (offset : Nat) : List Char → Option (List Char × List Char)
  | [] => if offset = 0 then some ([], []) else none
  | c :: cs =>
    if offset = 0 then some ([], c :: cs)
    else if offset < c.utf8Size then none
    else (cut? (offset - c.utf8Size) cs).map fun (before, after) => (c :: before, after)

/-- The part of a text from byte `first` up to byte `last`, unless one of them falls inside a character
or behind the text, or they are in the wrong order. -/
def slice? (source : List Char) (first last : Nat) : Option (List Char) := do
  let (before, _) ← cut? last source
  let (_, part) ← cut? first before
  pure part

/-- A text is cut exactly at its boundaries. -/
theorem cut?_eq_some_iff {offset : Nat} {source before after : List Char} :
    cut? offset source = some (before, after) ↔
      source = before ++ after ∧ offset = byteSize before := by
  -- by induction on the text; the offset goes down by the size of each character that is passed
  induction source generalizing offset before with
  | nil =>
    rw [cut?]
    constructor
    · intro h
      split at h
      · rename_i hzero
        cases h
        exact ⟨rfl, hzero⟩
      · cases h
    · rintro ⟨hsource, rfl⟩
      obtain ⟨rfl, rfl⟩ := List.append_eq_nil_iff.mp hsource.symm
      rfl
  | cons c cs ih =>
    have hpos := c.utf8Size_pos
    rw [cut?]
    cases before with
    | nil =>
      by_cases hzero : offset = 0
      · simp [hzero, byteSize, eq_comm]
      · -- nothing is before the cut, but a cut behind the first byte puts a character there
        refine iff_of_false ?_ fun h => hzero h.2
        intro h
        rw [if_neg hzero] at h
        split at h
        · cases h
        · obtain ⟨_, _, hcons⟩ := Option.map_eq_some_iff.mp h
          cases hcons
    | cons d before =>
      -- something is before the cut, so its first character is the one at hand
      have hsize : byteSize (d :: before) = d.utf8Size + byteSize before := rfl
      constructor
      · intro h
        by_cases hzero : offset = 0
        · rw [if_pos hzero] at h
          cases h
        · rw [if_neg hzero] at h
          split at h
          · cases h
          · rename_i hlt
            obtain ⟨⟨before', after'⟩, hcut, hcons⟩ := Option.map_eq_some_iff.mp h
            cases hcons
            obtain ⟨rfl, hoffset⟩ := ih.mp hcut
            exact ⟨rfl, by omega⟩
      · rintro ⟨hsource, rfl⟩
        rw [List.cons_append] at hsource
        obtain ⟨rfl, rfl⟩ := List.cons.inj hsource
        have hrest : cut? (byteSize before) (before ++ after) = some (before, after) :=
          ih.mpr ⟨rfl, rfl⟩
        rw [if_neg (by omega), if_neg (by omega), hsize, Nat.add_sub_cancel_left, hrest]
        rfl

/-- There is a part between two bytes exactly if they are the boundaries before and behind it. -/
theorem slice?_eq_some_iff {source part : List Char} {first last : Nat} :
    slice? source first last = some part ↔ ∃ before after, source = before ++ part ++ after ∧
      first = byteSize before ∧ last = byteSize before + byteSize part := by
  rw [slice?]
  constructor
  · intro h
    obtain ⟨⟨upTo, after⟩, hlast, h⟩ := Option.bind_eq_some_iff.mp h
    obtain ⟨⟨before, rest⟩, hfirst, h⟩ := Option.bind_eq_some_iff.mp h
    cases h
    -- the text is cut twice, first at the end of the part
    obtain ⟨rfl, rfl⟩ := cut?_eq_some_iff.mp hlast
    obtain ⟨rfl, rfl⟩ := cut?_eq_some_iff.mp hfirst
    exact ⟨before, after, rfl, rfl, byteSize_append before part⟩
  · rintro ⟨before, after, rfl, rfl, rfl⟩
    rw [← byteSize_append, cut?_eq_some_iff.mpr ⟨rfl, rfl⟩]
    change (cut? (byteSize before) (before ++ part)).bind _ = _
    rw [cut?_eq_some_iff.mpr ⟨rfl, rfl⟩]
    rfl

/-! ### Line feeds -/

/-- The byte of the first line feed of a text. -/
def firstFeed? : List Char → Option Nat
  | [] => none
  | c :: cs => if c = '\n' then some 0 else (firstFeed? cs).map (c.utf8Size + ·)

/-- The byte of the last line feed of a text. -/
def lastFeed? : List Char → Option Nat
  | [] => none
  | c :: cs =>
    match lastFeed? cs with
    | some n => some (c.utf8Size + n)
    | none => if c = '\n' then some 0 else none

theorem firstFeed?_eq_none {cs : List Char} (h : '\n' ∉ cs) : firstFeed? cs = none := by
  induction cs with
  | nil => rfl
  | cons c cs ih =>
    rw [List.mem_cons, not_or] at h
    obtain ⟨hc, hcs⟩ := h
    rw [firstFeed?, if_neg (Ne.symm hc), ih hcs]
    rfl

theorem firstFeed?_append {line : List Char} (h : '\n' ∉ line) (rest : List Char) :
    firstFeed? (line ++ '\n' :: rest) = some (byteSize line) := by
  induction line with
  | nil => rfl
  | cons c line ih =>
    rw [List.mem_cons, not_or] at h
    obtain ⟨hc, hline⟩ := h
    rw [List.cons_append, firstFeed?, if_neg (Ne.symm hc), ih hline]
    rfl

theorem lastFeed?_eq_none {cs : List Char} (h : '\n' ∉ cs) : lastFeed? cs = none := by
  induction cs with
  | nil => rfl
  | cons c cs ih =>
    rw [List.mem_cons, not_or] at h
    obtain ⟨hc, hcs⟩ := h
    rw [lastFeed?, ih hcs]
    exact if_neg (Ne.symm hc)

theorem lastFeed?_append (above : List Char) {line : List Char} (h : '\n' ∉ line) :
    lastFeed? (above ++ '\n' :: line) = some (byteSize above) := by
  induction above with
  | nil =>
    rw [List.nil_append, lastFeed?, lastFeed?_eq_none h]
    rfl
  | cons c above ih =>
    rw [List.cons_append, lastFeed?, ih]
    rfl

end ContractBasic.Text
