/-
Printed comments.

A comment is printed as a single token, whatever its text; the token ends where the comment does,
and the text is found in it again unless the ends of block comments had to be split.

* `writtenComment` — the token of a comment
* `tokens_commentPieces`, `legible_commentPieces` — what is printed is this token
* `cleanComment_writtenComment_of_safe`, `cleanComment_writtenComment_of_split` — the text of the token
* `cleanComment_writtenComment` — the text of a comment that was read, found in its token again
-/
import ContractBasic.Print.Comment
import ContractBasic.Program.OfTree
import ContractBasic.Proofs.Print.Row

namespace ContractBasic

/-! ### Ends of block comments -/

theorem blockEnd?_eq_none_cons {c : Char} {cs : List Char} (hcs : blockEnd? cs = none)
    (hc : c = '*' → cs.head? ≠ some '/') : blockEnd? (c :: cs) = none := by
  rw [blockEnd?, hcs]
  · rfl
  · rintro tail rfl rfl
    exact hc rfl rfl

/-- Behind a text without the end of a block comment, the next one is the first. -/
theorem blockEnd?_append_space {cs : List Char} (h : blockEnd? cs = none) :
    blockEnd? (cs ++ [' ', '*', '/']) = some (cs.length + 3) := by
  fun_induction blockEnd? cs with
  | case1 cs => cases h
  | case2 c cs hc ih =>
    rw [Option.map_eq_none_iff] at h
    rw [List.cons_append, blockEnd?, ih h]
    · rfl
    · -- a star at the end of the text is followed by a blank, and any other is followed as before
      rintro tail rfl htail
      cases cs with
      | nil => cases htail
      | cons d cs =>
        obtain ⟨rfl, -⟩ := List.cons.inj htail
        exact hc cs rfl rfl
  | case3 => rfl

theorem head?_splitBlockEnds (cs : List Char) : (splitBlockEnds cs).head? = cs.head? := by
  fun_cases splitBlockEnds cs <;> rfl

/-- Split ends end nothing. -/
theorem blockEnd?_splitBlockEnds (cs : List Char) : blockEnd? (splitBlockEnds cs) = none := by
  fun_induction splitBlockEnds cs with
  | case1 cs ih =>
    -- the star and the slash are apart now, and the slash by itself ends nothing
    have hslash : blockEnd? ('/' :: splitBlockEnds cs) = none :=
      blockEnd?_eq_none_cons ih (fun h => absurd h (by decide))
    have hspace : blockEnd? (' ' :: '/' :: splitBlockEnds cs) = none :=
      blockEnd?_eq_none_cons hslash (fun h => absurd h (by decide))
    exact blockEnd?_eq_none_cons hspace (fun _ => by simp)
  | case2 c cs hc ih =>
    -- no end stood here, and splitting what is behind leaves its first character
    refine blockEnd?_eq_none_cons ih ?_
    rintro rfl hhead
    rw [head?_splitBlockEnds] at hhead
    obtain ⟨tail, rfl⟩ := List.head?_eq_some_iff.mp hhead
    exact hc tail rfl rfl
  | case3 => rfl

/-! ### The token of a comment -/

/-- A text as a line comment. -/
def lineForm (cs : List Char) : String := String.ofList ('/' :: '/' :: ' ' :: cs)

/-- A text as a block comment. -/
def blockForm (cs : List Char) : String := String.ofList ('/' :: '*' :: ' ' :: cs ++ [' ', '*', '/'])

/-- The token that is printed for a comment; `followed` says that another comment stands behind it
on its line. -/
def writtenComment (text : String) (followed : Bool) : String :=
  let cs := text.toList
  let severalLines := '\n' ∈ cs
  if (blockEnd? cs).isSome then
    if severalLines then blockForm (splitBlockEnds cs) else lineForm cs
  else if severalLines ∨ followed then blockForm cs
  else lineForm cs

theorem isLineComment_lineForm {cs : List Char} (h : '\n' ∉ cs) : IsLineComment (lineForm cs) :=
  ⟨' ' :: cs, by simp [lineForm], by simpa using h⟩

theorem isBlockComment_blockForm {cs : List Char} (h : blockEnd? cs = none) :
    IsBlockComment (blockForm cs) := by
  refine ⟨' ' :: cs ++ [' ', '*', '/'], by simp [blockForm], ?_⟩
  have hspace : blockEnd? (' ' :: cs) = none :=
    blockEnd?_eq_none_cons h (fun h => absurd h (by decide))
  rw [blockEnd?_append_space hspace]
  simp

theorem not_isLineComment_blockForm (cs : List Char) : ¬ IsLineComment (blockForm cs) := by
  rintro ⟨ds, hds, -⟩
  simp [blockForm] at hds

/-- The four shapes of a printed comment. -/
theorem commentPieces_cases (text : String) (followed : Bool) :
    (∃ cs, blockEnd? cs = none ∧ writtenComment text followed = blockForm cs ∧
        commentPieces text followed = [.token (.comment (blockForm cs))]) ∨
      '\n' ∉ text.toList ∧ writtenComment text followed = lineForm text.toList ∧
        commentPieces text followed = .token (.comment (lineForm text.toList)) ::
          if followed then [.newline] else [] := by
  -- block ends and line feeds in the text decide the shape, and with neither what follows does
  by_cases hend : (blockEnd? text.toList).isSome <;> by_cases hlines : '\n' ∈ text.toList
  · refine .inl ⟨splitBlockEnds text.toList, blockEnd?_splitBlockEnds _, ?_, ?_⟩
    · simp [writtenComment, hend, hlines]
    · simp [commentPieces, hend, hlines, blockComment, blockForm]
  · refine .inr ⟨hlines, ?_, ?_⟩
    · simp [writtenComment, hend, hlines]
    · cases followed <;> simp [commentPieces, hend, hlines, lineComment, lineForm]
  · have hnone : blockEnd? text.toList = none := by simpa using hend
    refine .inl ⟨text.toList, hnone, ?_, ?_⟩
    · simp [writtenComment, hnone, hlines]
    · simp [commentPieces, hnone, hlines, blockComment, blockForm]
  · have hnone : blockEnd? text.toList = none := by simpa using hend
    cases followed with
    | true =>
      refine .inl ⟨text.toList, hnone, ?_, ?_⟩
      · simp [writtenComment, hnone]
      · simp [commentPieces, hnone, blockComment, blockForm]
    | false =>
      refine .inr ⟨hlines, ?_, ?_⟩
      · simp [writtenComment, hnone, hlines]
      · simp [commentPieces, hnone, hlines, lineComment, lineForm]

open Piece

/-- A comment is printed as one token. -/
@[simp] theorem tokens_commentPieces (text : String) (followed : Bool) :
    tokens (commentPieces text followed) = [.comment (writtenComment text followed)] := by
  rcases commentPieces_cases text followed with ⟨cs, -, hwritten, hpieces⟩ | ⟨-, hwritten, hpieces⟩
  · rw [hpieces, hwritten]
    rfl
  · rw [hpieces, hwritten]
    cases followed <;> rfl

theorem next_commentPieces (text : String) (followed : Bool) (rest : List Piece) :
    next (commentPieces text followed ++ rest) = some '/' := by
  rcases commentPieces_cases text followed with ⟨cs, -, -, hpieces⟩ | ⟨-, -, hpieces⟩
  · simp [hpieces, next, chars, Token.spelling, blockForm]
  · simp [hpieces, next, chars, Token.spelling, lineForm]

/-- A printed comment may stand before anything if another comment follows on its line, and before
a line feed if not. -/
theorem legible_commentPieces (text : String) (followed : Bool) {rest : List Piece}
    (hrest : Legible rest) (hnext : followed = false → ∀ c ∈ next rest, c = '\n') :
    Legible (commentPieces text followed ++ rest) := by
  rcases commentPieces_cases text followed with ⟨cs, hcs, -, hpieces⟩ | ⟨hlines, -, hpieces⟩
  · rw [hpieces]
    exact ⟨.inr (isBlockComment_blockForm hcs),
      fun h => absurd h (not_isLineComment_blockForm cs), hrest⟩
  · -- only a comment in line form minds what stands behind it
    rw [hpieces]
    have hlexical : (Token.comment (lineForm text.toList)).Lexical :=
      .inl (isLineComment_lineForm hlines)
    cases followed with
    | true =>
      refine ⟨hlexical, ?_, (legible_newline rest).mpr hrest⟩
      rintro - c ⟨⟩
      rfl
    | false => exact ⟨hlexical, fun _ => hnext rfl, hrest⟩

/-! ### The text of the token -/

namespace Text

theorem trim_space_cons (cs : List Char) : trim (' ' :: cs) = trim cs := rfl

theorem trim_append_space (cs : List Char) : trim (cs ++ [' ']) = trim cs := by
  have hright : ∀ ds, trimRight (ds ++ [' ']) = trimRight ds := by
    intro ds
    simp [trimRight, show isBlank ' ' = true by decide]
  rw [trim, List.dropWhile_append]
  split
  · rename_i hempty
    rw [trim, List.isEmpty_iff.mp hempty]
    rfl
  · exact hright _

/-- A text without blanks at its ends is left alone. -/
theorem trim_eq_self {cs : List Char} (hhead : ∀ c ∈ cs.head?, isBlank c = false)
    (hlast : ∀ c ∈ cs.getLast?, isBlank c = false) : trim cs = cs := by
  have hdrop : ∀ ds : List Char, (∀ c ∈ ds.head?, isBlank c = false) →
      ds.dropWhile isBlank = ds := by
    intro ds hds
    cases ds with
    | nil => rfl
    | cons d ds => simp [hds d rfl]
  rw [trim, hdrop cs hhead, trimRight, hdrop cs.reverse (by simpa using hlast), List.reverse_reverse]

end Text

/-- Whether a text is one that a comment can have: it is not empty, has no blanks at its ends, and
does not hold both a line feed and the end of a block comment. -/
structure IsCommentText (text : String) : Prop where
  ne_empty : text ≠ ""
  head : ∀ c ∈ text.toList.head?, Text.isBlank c = false
  last : ∀ c ∈ text.toList.getLast?, Text.isBlank c = false
  safe : ¬ ('\n' ∈ text.toList ∧ ['*', '/'] <:+: text.toList)

instance : DecidablePred IsCommentText := fun text =>
  decidable_of_iff (text ≠ "" ∧ text.toList.head?.any Text.isBlank = false ∧
    text.toList.getLast?.any Text.isBlank = false ∧
    ¬ ('\n' ∈ text.toList ∧ blockEnd? text.toList ≠ none)) (by
      have hany : ∀ c? : Option Char,
          c?.any Text.isBlank = false ↔ ∀ c ∈ c?, Text.isBlank c = false := by
        intro c?
        cases c? <;> simp
      rw [hany, hany, ne_eq (blockEnd? _), blockEnd?_eq_none_iff, Decidable.not_not]
      exact ⟨fun ⟨h, hhead, hlast, hsafe⟩ => ⟨h, hhead, hlast, hsafe⟩,
        fun h => ⟨h.ne_empty, h.head, h.last, h.safe⟩⟩)

theorem cleanComment_lineForm (cs : List Char) :
    cleanComment (lineForm cs) = String.ofList (Text.trim cs) := by
  simp [cleanComment, lineForm, Text.trim_space_cons]

theorem cleanComment_blockForm (cs : List Char) :
    cleanComment (blockForm cs) = String.ofList (Text.trim cs) := by
  have htail : Text.dropTail ['*', '/'] (' ' :: cs ++ [' ', '*', '/']) = ' ' :: cs ++ [' '] := by
    have hsuffix : ['*', '/'].isSuffixOf (' ' :: cs ++ [' ', '*', '/']) = true := by
      rw [List.isSuffixOf_iff_suffix]
      exact ⟨' ' :: cs ++ [' '], by simp⟩
    rw [Text.dropTail, if_pos hsuffix]
    have hsplit : ' ' :: cs ++ [' ', '*', '/'] = (' ' :: cs ++ [' ']) ++ ['*', '/'] := by simp
    rw [hsplit]
    exact List.take_left' (by simp)
  have hlist : (blockForm cs).toList = '/' :: '*' :: (' ' :: cs ++ [' ', '*', '/']) := by
    simp [blockForm]
  rw [cleanComment, hlist]
  change String.ofList (Text.trim (Text.dropTail _ (' ' :: cs ++ _))) = _
  rw [htail, Text.trim_append_space, Text.trim_space_cons]

/-- A text without both a line feed and the end of a block comment is found in its token again, up to
the blanks around it. -/
theorem cleanComment_writtenComment_of_safe {text : String}
    (h : ¬ ('\n' ∈ text.toList ∧ ['*', '/'] <:+: text.toList)) (followed : Bool) :
    cleanComment (writtenComment text followed) = String.ofList (Text.trim text.toList) := by
  -- such a text is never split, so it stands as it is in one of the two forms
  have hform : writtenComment text followed = blockForm text.toList ∨
      writtenComment text followed = lineForm text.toList := by
    unfold writtenComment
    by_cases hend : blockEnd? text.toList = none
    · simp only [hend, Option.isSome_none, Bool.false_eq_true, if_false]
      split
      · exact .inl rfl
      · exact .inr rfl
    · have hinfix : ['*', '/'] <:+: text.toList := by rwa [blockEnd?_eq_none_iff, not_not] at hend
      have hline : '\n' ∉ text.toList := fun hline => h ⟨hline, hinfix⟩
      simp [Option.isSome_iff_ne_none, hend, hline]
  rcases hform with hform | hform
  · rw [hform, cleanComment_blockForm]
  · rw [hform, cleanComment_lineForm]

/-- In the token of a text with both of them, the ends of block comments are split. -/
theorem cleanComment_writtenComment_of_split {text : String} (hline : '\n' ∈ text.toList)
    (hend : ['*', '/'] <:+: text.toList) (followed : Bool) :
    cleanComment (writtenComment text followed)
      = String.ofList (Text.trim (splitBlockEnds text.toList)) := by
  have hsome : blockEnd? text.toList ≠ none := fun hnone => blockEnd?_eq_none_iff.mp hnone hend
  have hform : writtenComment text followed = blockForm (splitBlockEnds text.toList) := by
    simp [writtenComment, Option.isSome_iff_ne_none, hsome, hline]
  rw [hform, cleanComment_blockForm]

/-- The text of a comment is found in its token again. -/
theorem cleanComment_writtenComment {text : String} (h : IsCommentText text) (followed : Bool) :
    cleanComment (writtenComment text followed) = text := by
  rw [cleanComment_writtenComment_of_safe h.safe, Text.trim_eq_self h.head h.last,
    String.ofList_toList]

end ContractBasic
