/-
Rows of pieces and the lexer.

A row of pieces is legible if each of its tokens is over where the next piece starts.  The text of a
legible row has the tokens of the row, whatever blanks stand between them.

* `Piece.Legible` — rows whose tokens keep apart
* `Piece.lexFrom_of_legible` — the tokens of the text of a row
* `Piece.Phrase`, `Piece.Operand` — rows behind which no word goes on, and rows of operands
-/
import ContractBasic.Print.Piece
import ContractBasic.Proofs.Token.Scan

namespace ContractBasic

namespace Piece

/-! ### Tokens of a row -/

/-- The token of a piece. -/
def token? : Piece → Option Token
  | token t => some t
  | blank _ => none

/-- The tokens of a row. -/
def tokens (ps : List Piece) : List Token := ps.filterMap token?

@[simp] theorem tokens_nil : tokens [] = [] := rfl

@[simp] theorem tokens_token (t : Token) (ps : List Piece) :
    tokens (token t :: ps) = t :: tokens ps := rfl

@[simp] theorem tokens_blank (text : String) (ps : List Piece) :
    tokens (blank text :: ps) = tokens ps := rfl

@[simp] theorem tokens_append (ps qs : List Piece) : tokens (ps ++ qs) = tokens ps ++ tokens qs :=
  List.filterMap_append

@[simp] theorem tokens_word (w : String) (ps : List Piece) :
    tokens (word w :: ps) = .word w :: tokens ps := rfl

@[simp] theorem tokens_number (n : UInt64) (ps : List Piece) :
    tokens (number n :: ps) = .number n :: tokens ps := rfl

@[simp] theorem tokens_space (ps : List Piece) : tokens (space :: ps) = tokens ps := rfl

@[simp] theorem tokens_newline (ps : List Piece) : tokens (newline :: ps) = tokens ps := rfl

@[simp] theorem tokens_tab (ps : List Piece) : tokens (tab :: ps) = tokens ps := rfl

/-! ### Legible rows -/

/-- The first character of a row. -/
def next (ps : List Piece) : Option Char := (ps.flatMap chars).head?

/-- Whether every token of a row is one of the lexer's and is over where the rest of the row starts,
and everything else is blank. -/
def Legible : List Piece → Prop
  | [] => True
  | token t :: ps => t.Lexical ∧ t.EndsBefore (next ps) ∧ Legible ps
  | blank text :: ps => (∀ c ∈ text.toList, Text.isBlank c = true) ∧ Legible ps

/-- A token before a text in which it is over is the first token of the two. -/
theorem lexFrom_spelling {t : Token} (ht : t.Lexical) {cs : List Char}
    (hcs : t.EndsBefore cs.head?) (offset : Nat) :
    lexFrom offset (t.spelling.toList ++ cs) =
      ⟨⟨offset, t⟩ :: (lexFrom (offset + Text.byteSize t.spelling.toList) cs).tokens,
        (lexFrom (offset + Text.byteSize t.spelling.toList) cs).fault⟩ := by
  obtain ⟨c, ds, hspelling, hblank, hscan⟩ := scan_spelling ht hcs
  rw [hspelling, List.cons_append, lexFrom_of_scan hblank hscan]

/-- **The text of a legible row has the tokens of the row.** -/
theorem lexFrom_of_legible {ps : List Piece} (h : Legible ps) (offset : Nat) :
    (lexFrom offset (ps.flatMap chars)).fault = none ∧
      (lexFrom offset (ps.flatMap chars)).tokens.map Placed.item = tokens ps := by
  induction ps generalizing offset with
  | nil => simp [lexFrom]
  | cons p ps ih =>
    cases p with
    | token t =>
      obtain ⟨ht, hnext, hps⟩ := h
      obtain ⟨hfault, htokens⟩ := ih hps (offset + Text.byteSize t.spelling.toList)
      rw [List.flatMap_cons, chars, lexFrom_spelling ht hnext offset]
      exact ⟨hfault, by simp [htokens]⟩
    | blank text =>
      obtain ⟨hblank, hps⟩ := h
      rw [List.flatMap_cons, chars, lexFrom_blanks hblank]
      exact ih hps (offset + Text.byteSize text.toList)

/-! ### Where tokens are over -/

/-- Whether no word or number goes on at a character. -/
def Breaks (next : Option Char) : Prop := ∀ c ∈ next, isWordChar c = false

/-- Whether an operand starts with a character. -/
def Starts (next : Option Char) : Prop :=
  ∃ c, next = some c ∧ (c.isAlphanum = true ∨ c = '"' ∨ c = '(')

theorem Breaks.endsBefore_word {next : Option Char} (h : Breaks next) (w : String) :
    (Token.word w).EndsBefore next := h

theorem Breaks.endsBefore_number {next : Option Char} (h : Breaks next) (n : UInt64) :
    (Token.number n).EndsBefore next := by
  intro c hc
  by_contra hdigit
  have hword := isWordChar_of_isAlphanum (isAlphanum_of_isDigit (by simpa using hdigit))
  rw [h c hc] at hword
  cases hword

/-- Every operator is over where an operand starts. -/
theorem Starts.endsBefore_operator {next : Option Char} (h : Starts next) (o : Operator) :
    (Token.operator o).EndsBefore next := by
  obtain ⟨c, rfl, hc⟩ := h
  have hne : ∀ d : Char, d.isAlphanum = false ∧ d ≠ '"' ∧ d ≠ '(' → some c ≠ some d := by
    rintro d ⟨halnum, hquote, hparen⟩ hd
    cases hd
    rcases hc with hc | hc | hc
    · rw [hc] at halnum
      cases halnum
    · exact hquote hc
    · exact hparen hc
  -- only operators that another character would make longer have something to show
  have heq := hne '=' (by decide)
  rcases o with o | o | o
  · cases o with
    | lt => exact ⟨heq, hne '<' (by decide)⟩
    | gt => exact ⟨heq, hne '>' (by decide)⟩
    | _ => trivial
  · cases o with
    | div => exact ⟨hne '/' (by decide), hne '*' (by decide)⟩
    | _ => trivial
  · cases o with
    | and => exact hne '&' (by decide)
    | or => exact hne '|' (by decide)
    | not => exact heq
    | _ => trivial

theorem endsBefore_operator_space (o : Operator) (ps : List Piece) :
    (Token.operator o).EndsBefore (next (space :: ps)) := by
  have h : next (space :: ps) = some ' ' := rfl
  rw [h]
  rcases o with o | o | o <;> cases o <;> simp [Token.EndsBefore]

theorem breaks_operator (o : Operator) (ps : List Piece) :
    Breaks (next (token (.operator o) :: ps)) := by
  rcases o with o | o | o <;> cases o <;> (rintro c ⟨⟩; decide)

/-! ### Legible rows, piece by piece -/

@[simp] theorem legible_nil : Legible [] := trivial

@[simp] theorem legible_space (ps : List Piece) : Legible (space :: ps) ↔ Legible ps :=
  and_iff_right (List.all_eq_true.mp (by decide))

@[simp] theorem legible_newline (ps : List Piece) : Legible (newline :: ps) ↔ Legible ps :=
  and_iff_right (List.all_eq_true.mp (by decide))

@[simp] theorem legible_tab (ps : List Piece) : Legible (tab :: ps) ↔ Legible ps :=
  and_iff_right (List.all_eq_true.mp (by decide))

@[simp] theorem legible_lparen (ps : List Piece) :
    Legible (token .lparen :: ps) ↔ Legible ps := by
  simp [Legible, Token.Lexical, Token.EndsBefore]

@[simp] theorem legible_rparen (ps : List Piece) :
    Legible (token .rparen :: ps) ↔ Legible ps := by
  simp [Legible, Token.Lexical, Token.EndsBefore]

@[simp] theorem legible_comma (ps : List Piece) :
    Legible (token .comma :: ps) ↔ Legible ps := by
  simp [Legible, Token.Lexical, Token.EndsBefore]

theorem legible_assign {ps : List Piece} (h : Legible ps) :
    Legible (token .assign :: space :: ps) :=
  ⟨trivial, nofun, (legible_space ps).mpr h⟩

theorem legible_word {w : String} {ps : List Piece} (hw : IsWord w) (hnext : Breaks (next ps))
    (h : Legible ps) : Legible (word w :: ps) :=
  ⟨hw, hnext.endsBefore_word w, h⟩

theorem legible_number {n : UInt64} {ps : List Piece} (hnext : Breaks (next ps))
    (h : Legible ps) : Legible (number n :: ps) :=
  ⟨trivial, hnext.endsBefore_number n, h⟩

theorem breaks_nil : Breaks (next []) := nofun

theorem breaks_of_next {ps : List Piece} {c : Char} (h : next ps = some c)
    (hc : isWordChar c = false) : Breaks (next ps) := by
  rw [h]
  rintro d ⟨⟩
  exact hc

/-! ### Phrases -/

/-- A row that is legible before every legible row that does not go on with a word or a number. -/
def Phrase (ps : List Piece) : Prop :=
  ∀ rest, Legible rest → Breaks (next rest) → Legible (ps ++ rest)

/-- A phrase that starts as an operand does. -/
structure Operand (ps : List Piece) : Prop where
  phrase : Phrase ps
  starts : ∀ rest, Starts (next (ps ++ rest))

theorem phrase_nil : Phrase [] := fun _ h _ => h

theorem phrase_word {w : String} (hw : IsWord w) : Phrase [word w] :=
  fun _ h hnext => legible_word hw hnext h

theorem phrase_number (n : UInt64) : Phrase [number n] := fun _ h hnext => legible_number hnext h

/-- A word and a space before a phrase. -/
theorem Phrase.word_space {w : String} (hw : IsWord w) {ps : List Piece} (h : Phrase ps) :
    Phrase (word w :: space :: ps) := by
  intro rest hrest hnext
  exact legible_word hw (breaks_of_next rfl (by decide)) ((legible_space _).mpr (h rest hrest hnext))

end Piece

end ContractBasic
