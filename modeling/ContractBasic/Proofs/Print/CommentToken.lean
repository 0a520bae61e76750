/-
Printed comments before other text.

A printed comment does not run on into what follows, and does not end before its own end, whatever its
text is: it is one token, and what follows has the tokens that it has when it is read alone.

* `Lexing.shift`, `lexFrom_add` — what the lexer finds in a text that stands further on
* `EndsSplit` — texts whose ends of block comments are split
* `lexFrom_commentPieces_append` — a printed comment and what follows it
* `lex_render_commentPieces` — the token of a printed comment, its text, and the tokens behind it
-/
import ContractBasic.Proofs.Print.Comment

namespace ContractBasic

/-! ### Texts that stand further on -/

/-- What the lexer finds, with all offsets so many bytes further on. -/
def Lexing.shift (size : Nat) (l : Lexing) : Lexing where
  tokens := l.tokens.map fun t => ⟨size + t.offset, t.item⟩
  fault := l.fault.map fun f => ⟨size + f.offset, f.item⟩

/-- The place of a text moves offsets and changes nothing else. -/
theorem lexFrom_add (size offset : Nat) (cs : List Char) :
    lexFrom (size + offset) cs = (lexFrom offset cs).shift size := by
  fun_induction lexFrom offset cs with
  | case1 offset => rw [lexFrom]; rfl
  | case2 offset c cs hblank ih =>
    rw [lexFrom, if_pos hblank, Nat.add_assoc, ih]
  | case3 offset c cs hblank fault hscan =>
    rw [lexFrom, if_neg hblank, hscan]
    rfl
  | case4 offset c cs hblank token n hscan next later ih =>
    have hnext : size + offset + c.utf8Size + Text.byteSize (cs.take n) = size + next := by
      simp only [next, Nat.add_assoc]
    rw [lexFrom, if_neg hblank, hscan]
    simp only [hnext, ih]
    rfl

theorem lexFrom_eq_shift (size : Nat) (cs : List Char) : lexFrom size cs = (lex cs).shift size :=
  lexFrom_add size 0 cs

/-! ### Split ends -/

/-- Whether a text is another one in which every end of a block comment is split by a space: cut there,
the two have the same parts. -/
def EndsSplit (split cs : List Char) : Prop :=
  ∃ part parts, (∀ p ∈ part :: parts, ¬ ['*', '/'] <:+: p) ∧
    cs = ['*', '/'].intercalate (part :: parts) ∧
    split = ['*', ' ', '/'].intercalate (part :: parts)

theorem endsSplit_splitBlockEnds (cs : List Char) : EndsSplit (splitBlockEnds cs) cs := by
  fun_induction splitBlockEnds cs with
  | case1 cs ih =>
    -- an end is cut off as an empty first part
    obtain ⟨part, parts, hparts, hcs, hsplit⟩ := ih
    refine ⟨[], part :: parts, List.forall_mem_cons.mpr ⟨by simp, hparts⟩, ?_, ?_⟩
    · simp [List.intercalate, hcs]
    · simp [List.intercalate, hsplit]
  | case2 c cs hc ih =>
    obtain ⟨part, parts, hparts, hcs, hsplit⟩ := ih
    obtain ⟨hpart, hparts⟩ := List.forall_mem_cons.mp hparts
    have hcons : ∀ sep : List Char,
        sep.intercalate ((c :: part) :: parts) = c :: sep.intercalate (part :: parts) := by
      intro sep
      cases parts <;> simp [List.intercalate]
    refine ⟨c :: part, parts, List.forall_mem_cons.mpr ⟨?_, hparts⟩, ?_, ?_⟩
    · rw [List.infix_cons_iff, not_or]
      refine ⟨?_, hpart⟩
      -- an end at the start of the first part would be one at the start of the text
      rintro ⟨tail, htail⟩
      obtain ⟨rfl, rfl⟩ := List.cons.inj htail
      cases parts with
      | nil => exact hc tail rfl (by simpa [List.intercalate] using hcs)
      | cons p parts => exact hc _ rfl (by simpa [List.intercalate] using hcs)
    · rw [hcons, hcs]
    · rw [hcons, hsplit]
  | case3 => exact ⟨[], [], by simp, rfl, rfl⟩

/-! ### Printed comments -/

open Piece

/-- A printed comment before other text is one token; the text goes on as if it stood alone. -/
theorem lexFrom_commentPieces_append (text : String) (followed : Bool) {rest : List Char}
    (hrest : followed = false → ∀ c ∈ rest.head?, c = '\n') (offset : Nat) :
    lexFrom offset ((commentPieces text followed).flatMap chars ++ rest) =
      ⟨⟨offset, .comment (writtenComment text followed)⟩ ::
          (lexFrom (offset + Text.byteSize ((commentPieces text followed).flatMap chars)) rest).tokens,
        (lexFrom (offset + Text.byteSize ((commentPieces text followed).flatMap chars)) rest).fault⟩ := by
  rcases commentPieces_cases text followed with ⟨cs, hcs, hwritten, hpieces⟩ | ⟨hlines, hwritten, hpieces⟩
  · have hlexical : (Token.comment (blockForm cs)).Lexical := .inr (isBlockComment_blockForm hcs)
    have hends : (Token.comment (blockForm cs)).EndsBefore rest.head? :=
      fun h => absurd h (not_isLineComment_blockForm cs)
    have hchars : (commentPieces text followed).flatMap chars
        = (Token.comment (blockForm cs)).spelling.toList := by
      rw [hpieces, List.flatMap_singleton, chars]
    rw [hchars, hwritten, lexFrom_spelling hlexical hends]
  · have hlexical : (Token.comment (lineForm text.toList)).Lexical :=
      .inl (isLineComment_lineForm hlines)
    cases followed with
    | true =>
      -- the line feed belongs to the comment and is dropped as a blank
      have hends : (Token.comment (lineForm text.toList)).EndsBefore (('\n' :: rest).head?) := by
        rintro - c ⟨⟩
        rfl
      have hchars : (commentPieces text true).flatMap chars
          = (Token.comment (lineForm text.toList)).spelling.toList ++ ['\n'] := by
        rw [hpieces]
        simp [chars, newline]
      have hfeed : ∀ offset, lexFrom offset ('\n' :: rest)
          = lexFrom (offset + Text.byteSize ['\n']) rest :=
        fun offset => @lexFrom_blanks ['\n'] (List.forall_mem_singleton.mpr rfl) offset rest
      rw [hchars, hwritten, List.append_assoc, List.singleton_append, lexFrom_spelling hlexical hends,
        hfeed, Text.byteSize_append, Nat.add_assoc]
    | false =>
      have hchars : (commentPieces text false).flatMap chars
          = (Token.comment (lineForm text.toList)).spelling.toList := by
        rw [hpieces]
        simp [chars]
      rw [hchars, hwritten, lexFrom_spelling hlexical fun _ => hrest rfl]

/-- **A printed comment is one token that carries its text.**  Before any text if another comment is to
follow, and before a line feed or the end if not, it is read as a single comment, and what follows it
has the tokens and the fault that it has alone, so many bytes further on.  The text of the token is the
text of the comment without the blanks around it; only if that holds both a line feed and the end of a
block comment are its ends of block comments split. -/
theorem lex_render_commentPieces (text : String) (followed : Bool) {rest : List Char}
    (hrest : followed = false → ∀ c ∈ rest.head?, c = '\n') :
    ∃ raw later, lex ((render (commentPieces text followed)).toList ++ rest)
        = ⟨⟨0, .comment raw⟩ :: later.tokens, later.fault⟩ ∧
      later = (lex rest).shift (Text.byteSize (render (commentPieces text followed)).toList) ∧
      (¬ ('\n' ∈ text.toList ∧ ['*', '/'] <:+: text.toList) →
        cleanComment raw = String.ofList (Text.trim text.toList)) ∧
      ('\n' ∈ text.toList ∧ ['*', '/'] <:+: text.toList →
        ∃ split, EndsSplit split text.toList ∧ cleanComment raw = String.ofList (Text.trim split)) := by
  refine ⟨writtenComment text followed, _, ?_, rfl, ?_, ?_⟩
  · rw [render, String.toList_ofList, lex, lexFrom_commentPieces_append text followed hrest,
      Nat.zero_add, lexFrom_eq_shift]
  · exact fun hsafe => cleanComment_writtenComment_of_safe hsafe followed
  · -- neither form can hold such a text, so its block ends are split
    rintro ⟨hline, hend⟩
    exact ⟨splitBlockEnds text.toList, endsSplit_splitBlockEnds _,
      cleanComment_writtenComment_of_split hline hend followed⟩

/-- A text that starts and ends like a block comment and has a line feed and three ends in it. -/
def hostileText : String := "/*/\n**/*/ "

theorem lex_render_commentPieces_hostileText :
    (∀ c ∈ "\n10?".toList.head?, c = '\n') ∧
    '\n' ∈ hostileText.toList ∧ ['*', '/'] <:+: hostileText.toList ∧
    ∃ raw later, lex ((render (commentPieces hostileText false)).toList ++ "\n10?".toList)
        = ⟨⟨0, .comment raw⟩ :: later.tokens, later.fault⟩ ∧
      later = (lex "\n10?".toList).shift
        (Text.byteSize (render (commentPieces hostileText false)).toList) ∧
      ∃ split, EndsSplit split hostileText.toList ∧ cleanComment raw = String.ofList (Text.trim split) := by
  have hrest : ∀ c ∈ "\n10?".toList.head?, c = '\n' := by simp
  have hline : '\n' ∈ hostileText.toList := by decide
  have hend : ['*', '/'] <:+: hostileText.toList := ⟨['/'], "\n**/*/ ".toList, rfl⟩
  obtain ⟨raw, later, hlex, hlater, -, hsplit⟩ := lex_render_commentPieces hostileText false fun _ => hrest
  exact ⟨hrest, hline, hend, raw, later, hlex, hlater, hsplit ⟨hline, hend⟩⟩

end ContractBasic
