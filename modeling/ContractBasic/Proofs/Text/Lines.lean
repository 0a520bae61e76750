/-
The lines of a text and the places in them.

A place stands behind some whole lines and behind some characters of its own line.  These say what the
position of the place is and where its line starts and ends.  The same is found by going through the text
byte by byte and taking parts of it, and no part that is taken starts or ends inside a character.

* `Text.Place`, `Text.exists_place` — the lines around a boundary of a text
* `Text.Place.splitOn_source`, `Text.Place.lineAt_source`, `Text.Place.locate_source` — the lines of the
  text, the line of the place and its position
* `Position.locate?`, `Text.lineAt?` — the position of a byte and the line around it, with a check of
  every part of the text that is taken
* `Text.Place.locate?_source`, `Text.Place.lineAt?_source` — at a place the checks pass
-/
import ContractBasic.Proofs.Text.Slice
import ContractBasic.Proofs.Token.Scan
import Mathlib.Algebra.GroupWithZero.Nat

namespace ContractBasic

namespace Text

/-! ### Places -/

/-- Lines, each closed by a line feed. -/
def endLines (lines : List (List Char)) : List Char := lines.flatMap fun line => line ++ ['\n']

/-- A place in a text: the lines above it, what stands before and behind it on its line, and the text
below, which starts with a line feed if there is any. -/
structure Place where
  above : List (List Char)
  left : List Char
  right : List Char
  below : List Char
  above_plain : ∀ line ∈ above, '\n' ∉ line
  left_plain : '\n' ∉ left
  right_plain : '\n' ∉ right
  below_opens : ∀ c ∈ below.head?, c = '\n'

namespace Place

/-- The text before a place. -/
def before (p : Place) : List Char := endLines p.above ++ p.left

/-- The line of a place. -/
def line (p : Place) : List Char := p.left ++ p.right

/-- The text in which a place stands. -/
def source (p : Place) : List Char := p.before ++ (p.right ++ p.below)

/-- The byte at which a place stands. -/
def offset (p : Place) : Nat := byteSize p.before

/-- The byte at which the line of a place starts. -/
def first (p : Place) : Nat := byteSize (endLines p.above)

end Place

theorem endLines_cons (line : List Char) (lines : List (List Char)) (rest : List Char) :
    endLines (line :: lines) ++ rest = line ++ '\n' :: (endLines lines ++ rest) := by
  simp [endLines]

theorem byteSize_endLines_cons (line : List Char) (lines : List (List Char)) :
    byteSize (endLines (line :: lines)) = byteSize line + (1 + byteSize (endLines lines)) := by
  have hcons := endLines_cons line lines []
  rw [List.append_nil, List.append_nil] at hcons
  rw [hcons, byteSize_append]
  rfl

theorem byteSize_endLines (lines : List (List Char)) :
    byteSize (endLines lines) = (lines.map fun line => byteSize line + 1).sum := by
  induction lines with
  | nil => rfl
  | cons line lines ih =>
    rw [byteSize_endLines_cons, ih, List.map_cons, List.sum_cons]
    omega

/-- Whole lines end with a line feed, if there are any. -/
theorem endLines_eq (lines : List (List Char)) :
    lines = [] ∨ ∃ upper last, endLines lines = upper ++ last ++ ['\n'] := by
  rcases List.eq_nil_or_concat lines with rfl | ⟨init, last, rfl⟩
  · exact .inl rfl
  · refine .inr ⟨endLines init, last, ?_⟩
    simp [endLines]

/-- Every text is whole lines and a part of one more. -/
theorem exists_endLines (cs : List Char) : ∃ lines last, cs = endLines lines ++ last ∧
    (∀ line ∈ lines, '\n' ∉ line) ∧ '\n' ∉ last := by
  induction cs with
  | nil => exact ⟨[], [], rfl, nofun, nofun⟩
  | cons c cs ih =>
    obtain ⟨lines, last, rfl, hlines, hlast⟩ := ih
    by_cases hc : c = '\n'
    · refine ⟨[] :: lines, last, ?_, List.forall_mem_cons.mpr ⟨nofun, hlines⟩, hlast⟩
      rw [endLines_cons, hc]
      rfl
    · -- the character stands on the first line
      have hmem : ∀ {line : List Char}, '\n' ∉ line → '\n' ∉ c :: line := by
        intro line hline
        rw [List.mem_cons, not_or]
        exact ⟨Ne.symm hc, hline⟩
      rcases lines with _ | ⟨line, lines⟩
      · exact ⟨[], c :: last, rfl, nofun, hmem hlast⟩
      · obtain ⟨hline, hlines⟩ := List.forall_mem_cons.mp hlines
        refine ⟨(c :: line) :: lines, last, ?_, List.forall_mem_cons.mpr ⟨hmem hline, hlines⟩, hlast⟩
        rw [endLines_cons, endLines_cons]
        rfl

/-- Every boundary of a text is a place in it. -/
theorem exists_place {source : List Char} {offset : Nat} (h : IsBoundary source offset) :
    ∃ p : Place, p.source = source ∧ p.offset = offset := by
  obtain ⟨before, after, rfl, rfl⟩ := h
  obtain ⟨above, left, rfl, habove, hleft⟩ := exists_endLines before
  -- behind the boundary the line goes on up to the next line feed
  have hright : '\n' ∉ after.takeWhile (· ≠ '\n') := by
    intro hmem
    have h := List.all_eq_true.mp (List.all_takeWhile (p := (· ≠ '\n'))) _ hmem
    simp at h
  have hbelow : ∀ c ∈ (after.dropWhile (· ≠ '\n')).head?, c = '\n' := by
    intro c hc
    have h := List.head?_dropWhile_not (· ≠ '\n') after
    rw [hc] at h
    simpa using h
  refine ⟨⟨above, left, _, _, habove, hleft, hright, hbelow⟩, ?_, rfl⟩
  rw [Place.source, List.takeWhile_append_dropWhile]
  rfl

namespace Place

variable (p : Place)

/-- The line of a place stands between the lines above and the text below. -/
theorem source_eq : p.source = endLines p.above ++ p.line ++ p.below := by
  simp [source, before, line]

theorem line_plain : '\n' ∉ p.line := by
  rw [line, List.mem_append, not_or]
  exact ⟨p.left_plain, p.right_plain⟩

theorem below_cases : p.below = [] ∨ ∃ rest, p.below = '\n' :: rest := by
  rcases hbelow : p.below with _ | ⟨c, rest⟩
  · exact .inl rfl
  · obtain rfl : c = '\n' := p.below_opens c (by rw [hbelow]; rfl)
    exact .inr ⟨rest, rfl⟩

theorem offset_eq_first_add : p.offset = p.first + byteSize p.left := byteSize_append _ _

theorem byteSize_source : byteSize p.source = p.first + byteSize p.line + byteSize p.below := by
  rw [source_eq, byteSize_append, byteSize_append, first]

/-- A place stands inside its text. -/
theorem min_offset : min p.offset (byteSize p.source) = p.offset := by
  rw [source, byteSize_append, ← offset]
  omega

/-- A place has the number of bytes of the lines above it, of their line feeds, and of what stands before
it on its line. -/
theorem offset_eq : p.offset
    = (p.above.map fun line => byteSize line + 1).sum + byteSize (p.line.take p.left.length) := by
  rw [offset_eq_first_add, first, byteSize_endLines, line, List.take_left]

/-- Between its line feeds a text has the lines above a place, the line of the place, and others. -/
theorem splitOn_source : ∃ later, p.source.splitOn '\n' = p.above ++ p.line :: later := by
  have hrest : ∃ later, (p.line ++ p.below).splitOn '\n' = p.line :: later := by
    rcases p.below_cases with hbelow | ⟨rest, hbelow⟩
    · exact ⟨[], by rw [hbelow, List.append_nil, List.splitOn_eq_singleton p.line_plain]⟩
    · exact ⟨_, by rw [hbelow, List.splitOn_append_cons_self_of_not_mem p.line_plain]⟩
  obtain ⟨later, hlater⟩ := hrest
  -- each line above is split off at its line feed
  have hlines : ∀ lines : List (List Char), (∀ line ∈ lines, '\n' ∉ line) →
      (endLines lines ++ (p.line ++ p.below)).splitOn '\n' = lines ++ p.line :: later := by
    intro lines hplain
    induction lines with
    | nil => exact hlater
    | cons line lines ih =>
      obtain ⟨hline, hplain⟩ := List.forall_mem_cons.mp hplain
      rw [endLines_cons, List.splitOn_append_cons_self_of_not_mem hline, ih hplain]
      rfl
  refine ⟨later, ?_⟩
  rw [source_eq, List.append_assoc]
  exact hlines p.above p.above_plain

/-- The line around the byte of a place is the line of the place. -/
theorem lineAt_source : lineAt p.offset p.source = p.line := by
  -- a line feed or an end of the text stands on both sides of the line
  have htake : ∀ {cs rest : List Char}, '\n' ∉ cs → (∀ c ∈ rest.head?, c = '\n') →
      (cs ++ rest).takeWhile (· ≠ '\n') = cs := by
    intro cs rest hcs hrest
    refine takeWhile_append_of_stop ?_ ?_
    · intro c hc
      exact decide_eq_true fun heq => hcs (heq ▸ hc)
    · intro c hc
      exact decide_eq_false (not_not_intro (hrest c hc))
  have hright : (p.right ++ p.below).takeWhile (· ≠ '\n') = p.right :=
    htake p.right_plain p.below_opens
  have hleft : p.before.reverse.takeWhile (· ≠ '\n') = p.left.reverse := by
    rw [before, List.reverse_append]
    refine htake (by simpa using p.left_plain) ?_
    rcases endLines_eq p.above with hnone | ⟨upper, last, hlines⟩
    · simp [hnone, endLines]
    · simp [hlines]
  rw [lineAt, source, offset, splitAtByte_append]
  dsimp only
  rw [hright, hleft, List.reverse_reverse, line]

end Place

end Text

/-! ### Positions -/

namespace Position

/-- Behind characters of one line the column has grown. -/
theorem foldl_advance_of_not_mem {cs : List Char} (h : '\n' ∉ cs) (p : Position) :
    cs.foldl advance p = ⟨p.offset + Text.byteSize cs, p.line, p.column + cs.length⟩ := by
  induction cs generalizing p with
  | nil => rfl
  | cons c cs ih =>
    rw [List.mem_cons, not_or] at h
    obtain ⟨hc, hcs⟩ := h
    have hadvance : p.advance c = ⟨p.offset + c.utf8Size, p.line, p.column + 1⟩ :=
      if_neg (Ne.symm hc)
    have hcolumn : p.column + 1 + cs.length = p.column + (c :: cs).length := by
      rw [List.length_cons]
      omega
    rw [List.foldl_cons, ih hcs, hadvance, Text.byteSize, ← Nat.add_assoc, hcolumn]

/-- Behind whole lines the line has grown, and a line starts. -/
theorem foldl_advance_endLines {lines : List (List Char)} (h : ∀ line ∈ lines, '\n' ∉ line)
    (offset n : Nat) : (Text.endLines lines).foldl advance ⟨offset, n, 1⟩
      = ⟨offset + Text.byteSize (Text.endLines lines), n + lines.length, 1⟩ := by
  induction lines generalizing offset n with
  | nil => rfl
  | cons line lines ih =>
    obtain ⟨hline, hlines⟩ := List.forall_mem_cons.mp h
    have hcons := Text.endLines_cons line lines []
    rw [List.append_nil, List.append_nil] at hcons
    have hfeed : advance ⟨offset + Text.byteSize line, n, 1 + line.length⟩ '\n'
        = ⟨offset + Text.byteSize line + 1, n + 1, 1⟩ := rfl
    rw [Text.byteSize_endLines_cons, hcons, List.foldl_append, foldl_advance_of_not_mem hline,
      List.foldl_cons, hfeed, ih hlines, List.length_cons, Position.mk.injEq]
    omega

end Position

/-- The position of a place: its line is behind those above it, and its column behind the characters that
stand before it on its line. -/
theorem Text.Place.locate_source (p : Place) :
    Position.locate p.source p.offset = ⟨p.offset, p.above.length + 1, p.left.length + 1⟩ := by
  rw [Position.locate, source, offset, splitAtByte_append]
  dsimp only
  rw [before, List.foldl_append, Position.start, Position.foldl_advance_endLines p.above_plain,
    Position.foldl_advance_of_not_mem p.left_plain, byteSize_append, Position.mk.injEq]
  dsimp only
  omega

/-! ### With every part checked -/

/-- The number of the line of byte `offset` and the byte where it starts.  The characters are those from
byte `here` on, which is on line `n`; this starts at byte `first`. -/
def Text.lineStart (offset here n first : Nat) : List Char → Nat × Nat
  | [] => (n, first)
  | c :: cs =>
    if offset ≤ here then (n, first)
    else if c = '\n' then lineStart offset (here + c.utf8Size) (n + 1) (here + 1) cs
    else lineStart offset (here + c.utf8Size) n first cs

/-- The place of byte `offset`, unless a part of the text that is needed is not there; an offset beyond
the end is taken as the end. -/
def Position.locate? (source : List Char) (offset : Nat) : Option Position :=
  let offset := min offset (Text.byteSize source)
  let (n, first) := Text.lineStart offset 0 1 0 source
  (Text.slice? source first offset).map fun part => ⟨offset, n, part.length + 1⟩

namespace Text

/-- The line around byte `offset`, unless a part of the text that is needed is not there; an offset beyond
the end is taken as the end. -/
def lineAt? (source : List Char) (offset : Nat) : Option (List Char) := do
  let offset := min offset (byteSize source)
  let before ← slice? source 0 offset
  let first := ((lastFeed? before).map (· + 1)).getD 0
  let after ← slice? source first (byteSize source)
  let last := ((firstFeed? after).map (first + ·)).getD (byteSize source)
  slice? source first last

theorem lineStart_of_not_mem {cs : List Char} (h : '\n' ∉ cs) (rest : List Char)
    {offset here n first : Nat} (hle : here + byteSize cs ≤ offset) :
    lineStart offset here n first (cs ++ rest)
      = lineStart offset (here + byteSize cs) n first rest := by
  induction cs generalizing here with
  | nil => rfl
  | cons c cs ih =>
    rw [List.mem_cons, not_or] at h
    obtain ⟨hc, hcs⟩ := h
    have hpos := c.utf8Size_pos
    rw [byteSize] at hle
    rw [List.cons_append, lineStart, if_neg (by omega), if_neg (Ne.symm hc), ih hcs (by omega),
      byteSize, Nat.add_assoc]

theorem lineStart_endLines {lines : List (List Char)} (h : ∀ line ∈ lines, '\n' ∉ line)
    (rest : List Char) {offset here n : Nat} (hle : here + byteSize (endLines lines) ≤ offset) :
    lineStart offset here n here (endLines lines ++ rest)
      = lineStart offset (here + byteSize (endLines lines)) (n + lines.length)
          (here + byteSize (endLines lines)) rest := by
  induction lines generalizing here n with
  | nil => rfl
  | cons line lines ih =>
    obtain ⟨hline, hlines⟩ := List.forall_mem_cons.mp h
    rw [byteSize_endLines_cons] at hle
    -- behind a line its feed is passed, where the next line starts
    have hfeed : lineStart offset (here + byteSize line) n here ('\n' :: (endLines lines ++ rest))
        = lineStart offset (here + byteSize line + 1) (n + 1) (here + byteSize line + 1)
            (endLines lines ++ rest) := by
      rw [lineStart, if_neg (by omega), if_pos rfl]
      rfl
    have hsize : here + byteSize line + 1 + byteSize (endLines lines)
        = here + (byteSize line + (1 + byteSize (endLines lines))) := by omega
    have hcount : n + 1 + lines.length = n + (line :: lines).length := by
      rw [List.length_cons]
      omega
    rw [endLines_cons, lineStart_of_not_mem hline _ (by omega), hfeed, ih hlines (by omega),
      byteSize_endLines_cons, hsize, hcount]

/-- The search for the line ends at the byte. -/
theorem lineStart_self (offset n first : Nat) (rest : List Char) :
    lineStart offset offset n first rest = (n, first) := by
  cases rest with
  | nil => rfl
  | cons c rest => exact if_pos (Nat.le_refl offset)

namespace Place

variable (p : Place)

/-- At a place the checks of the search for the position pass. -/
theorem locate?_source : Position.locate? p.source p.offset
    = some ⟨p.offset, p.above.length + 1, p.left.length + 1⟩ := by
  have hoffset : p.offset = 0 + p.first + byteSize p.left := by
    rw [offset_eq_first_add, Nat.zero_add]
  -- the search goes through the lines above and through what is left of the place, and stops there
  have hstart : lineStart p.offset 0 1 0 p.source = (1 + p.above.length, 0 + p.first) := by
    rw [source, before, List.append_assoc, lineStart_endLines p.above_plain _ (by rw [← first]; omega),
      lineStart_of_not_mem p.left_plain _ (by rw [← first]; omega), ← first, ← hoffset, lineStart_self]
  have hpart : slice? p.source (0 + p.first) p.offset = some p.left :=
    slice?_eq_some_iff.mpr ⟨endLines p.above, p.right ++ p.below, rfl, Nat.zero_add _,
      p.offset_eq_first_add⟩
  rw [Position.locate?, min_offset, hstart]
  dsimp only
  rw [hpart, Nat.add_comm 1]
  rfl

/-- The line of a place starts behind the last line feed before the place, or with the text. -/
theorem getD_lastFeed?_before : ((lastFeed? p.before).map (· + 1)).getD 0 = p.first := by
  rw [before, first]
  rcases endLines_eq p.above with hnone | ⟨upper, last, hlines⟩
  · rw [hnone]
    exact congrArg (fun n => (n.map (· + 1)).getD 0) (lastFeed?_eq_none p.left_plain)
  · have hcut : endLines p.above ++ p.left = upper ++ last ++ '\n' :: p.left := by
      rw [hlines, List.append_assoc, List.singleton_append]
    rw [hcut, lastFeed?_append _ p.left_plain, hlines, byteSize_append _ ['\n']]
    rfl

/-- The line of a place ends before the first line feed from where it starts, or with the text. -/
theorem getD_firstFeed?_line :
    ((firstFeed? (p.line ++ p.below)).map (p.first + ·)).getD (byteSize p.source)
      = p.first + byteSize p.line := by
  rcases p.below_cases with hbelow | ⟨rest, hbelow⟩
  · rw [byteSize_source, hbelow, List.append_nil, firstFeed?_eq_none p.line_plain]
    rfl
  · rw [hbelow, firstFeed?_append p.line_plain]
    rfl

/-- At a place the checks of the search for the line pass. -/
theorem lineAt?_source : lineAt? p.source p.offset = some p.line := by
  have hbefore : slice? p.source 0 p.offset = some p.before :=
    slice?_eq_some_iff.mpr ⟨[], p.right ++ p.below, rfl, rfl, (Nat.zero_add _).symm⟩
  have hafter : slice? p.source p.first (byteSize p.source) = some (p.line ++ p.below) := by
    refine slice?_eq_some_iff.mpr ⟨endLines p.above, [], ?_, rfl, ?_⟩
    · rw [source_eq, List.append_nil, List.append_assoc]
    · rw [byteSize_source, byteSize_append, ← first, Nat.add_assoc]
  have hpart : slice? p.source p.first (p.first + byteSize p.line) = some p.line :=
    slice?_eq_some_iff.mpr ⟨endLines p.above, p.below, p.source_eq, rfl, rfl⟩
  simp only [lineAt?, min_offset, hbefore, hafter, hpart, getD_lastFeed?_before,
    getD_firstFeed?_line, Option.bind_eq_bind, Option.bind_some]

end Place

end Text

end ContractBasic
