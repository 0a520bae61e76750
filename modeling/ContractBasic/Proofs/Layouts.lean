/-
One program in two layouts.

The layouts differ in blanks, and the lexer drops blanks.  A blank is left out only between tokens that
keep apart without it, so the texts of a program in both layouts have the same tokens, with comments
among them.

* `Expression.tokens_layout`, `Routine.tokens_layout`, `Program.tokens_layout` — what is printed has
  the same tokens in every layout
* `Program.lex_generate_layout` — the lexer finds them
-/
import ContractBasic.Proofs.Rename.Rendering

namespace ContractBasic

open Piece

variable (l l' : Layout)

/-! ### Expressions and statements -/

/-- An expression has the same tokens in every layout, whatever its operators and the numbers of their
operands. -/
theorem Expression.tokens_layout (e : Expression) (nested : Bool) :
    tokens (e.pieces l nested) = tokens (e.pieces l' nested) := by
  have hall : ∀ (es : List Expression) (nested : Bool),
      (∀ e ∈ es, ∀ nested, tokens (e.pieces l nested) = tokens (e.pieces l' nested)) →
      (es.map (pieces l nested)).map tokens = (es.map (pieces l' nested)).map tokens := by
    intro es nested h
    rw [List.map_map, List.map_map]
    exact List.map_congr_left fun e he => h e he nested
  induction e generalizing nested with
  | value v => cases v <;> rfl
  | name n => rfl
  | call f args ih =>
    have hargs := hall args false ih
    simp only [pieces, piecesOf_eq_map, tokens_append, tokens_join, hargs, tokens_comma]
  | operation o operands type ih =>
    have hoperands := hall operands true ih
    have hwhole : tokens ((operation o operands type).pieces l false)
        = tokens ((operation o operands type).pieces l' false) := by
      -- the symbol stands before one operand, and between any other number of them
      rcases operands with _ | ⟨a, _ | ⟨b, operands⟩⟩
      · rfl
      · simp [pieces, piecesOf, ih a]
      · have hpieces : ∀ l, (operation o (a :: b :: operands) type).pieces l false
            = join (l.gap ++ token (.operator o) :: l.gap)
                ((a :: b :: operands).map (pieces l true)) := by
          intro l
          simp [pieces, piecesOf_eq_map]
        rw [hpieces, hpieces, tokens_join, tokens_join, hoperands]
        simp only [tokens_append, tokens_token, tokens_gap]
    cases nested with
    | false => exact hwhole
    | true =>
      -- parentheses are tokens in both layouts
      rw [pieces_nested, pieces_nested, tokens_token, tokens_token, tokens_append, tokens_append,
        hwhole]

theorem tokens_dimPieces_layout (names : List String) (type : ValueType) :
    tokens (dimPieces l names type) = tokens (dimPieces l' names type) := by
  simp only [dimPieces, tokens_append, tokens_join, tokens_comma]

theorem StatementKind.tokens_layout (k : StatementKind) :
    tokens (k.body l) = tokens (k.body l') := by
  have hexpr := fun e => Expression.tokens_layout l l' e false
  cases k with
  | noOp | comment text => rfl
  | result e => simp [body, hexpr e]
  | evaluate e => exact hexpr e
  | branch c n otherwise => simp [body, hexpr c]
  | dim n type => exact tokens_dimPieces_layout l l' [n] type
  | assign n e => simp [body, hexpr e]
  | goto n => rfl

/-! ### Items -/

theorem Item.tokens_layout (open? : Option UInt64) (followed : Bool) (i : Item) :
    tokens (i.pieces l open? followed) = tokens (i.pieces l' open? followed) := by
  have hline := fun n => (tokens_linePieces l n).trans (tokens_linePieces l' n).symm
  cases i with
  | dims n names type => simp [pieces, hline, tokens_dimPieces_layout l l']
  | single s =>
    obtain ⟨n, kind⟩ := s
    cases kind with
    | noOp => exact hline n
    | comment text =>
      -- a comment on an open line prints no number in either layout
      by_cases hopen : open? = some n
      · simp [pieces, hopen, tokens_commentStart]
      · simp [pieces, hopen, hline, tokens_commentStart]
    | _ => simp [pieces, hline, StatementKind.tokens_layout l l']

theorem tokens_itemsPieces_layout (open? : Option UInt64) (items : List Item) :
    tokens (itemsPieces l open? items) = tokens (itemsPieces l' open? items) := by
  induction items generalizing open? with
  | nil => rfl
  | cons i rest ih =>
    rw [itemsPieces_cons, itemsPieces_cons, tokens_append, tokens_append, Item.tokens_layout l l', ih]

/-! ### Functions and programs -/

theorem Routine.tokens_layout (comments : Bool) (r : Routine) :
    tokens (r.pieces l comments) = tokens (r.pieces l' comments) := by
  have hheading : tokens (r.heading l) = tokens (r.heading l') := by
    simp only [heading, tokens_append, tokens_join, tokens_comma]
  simp only [pieces, tokens_append, hheading, tokens_itemsPieces_layout l l']

/-- A program has the same tokens in every layout. -/
theorem Program.tokens_layout (comments : Bool) (p : Program) :
    tokens (p.pieces l comments) = tokens (p.pieces l' comments) := by
  have hroutines : p.routines.flatMap (tokens ∘ Routine.pieces l comments)
      = p.routines.flatMap (tokens ∘ Routine.pieces l' comments) :=
    List.flatMap_congr fun r _ => Routine.tokens_layout l l' comments r
  rw [pieces, pieces, tokens_join_blank (tokens_separator l), tokens_join_blank (tokens_separator l'),
    List.flatMap_append, List.flatMap_append, List.flatMap_map, List.flatMap_map]
  exact congrArg (· ++ _) hroutines

/-! ### Texts -/

namespace Program

/-- What is generated is the source text of a program whose names and texts can be written, if those of
the program can be. -/
theorem Spellable.exists_source {p : Program} (hp : p.Spellable) (minify comments : Bool) :
    ∃ q : Program, q.Spellable ∧ ∀ compact, (p.generate ⟨minify, comments, compact⟩).code
      = q.source (GenerateOptions.layout ⟨minify, comments, compact⟩) comments := by
  cases minify with
  | false => exact ⟨p, hp, fun _ => rfl⟩
  | true => exact ⟨p.minified, hp.minified, fun _ => rfl⟩

/-- **The compact text of a program has the tokens of the spaced one**, comments included, whether names
are short and whether comments are written. -/
theorem lex_generate_layout {p : Program} (hp : p.Spellable) (minify comments : Bool) :
    (lex (p.generate ⟨minify, comments, true⟩).code.toList).fault = none ∧
    (lex (p.generate ⟨minify, comments, false⟩).code.toList).fault = none ∧
    (lex (p.generate ⟨minify, comments, true⟩).code.toList).tokens.map Placed.item
      = (lex (p.generate ⟨minify, comments, false⟩).code.toList).tokens.map Placed.item := by
  -- with short names the text is that of another program, the same one in both layouts
  obtain ⟨q, hq, hcode⟩ := hp.exists_source minify comments
  obtain ⟨hcompact, hcompactTokens⟩ := lex_source hq .compact comments
  obtain ⟨hspaced, hspacedTokens⟩ := lex_source hq .spaced comments
  rw [hcode true, hcode false]
  refine ⟨hcompact, hspaced, ?_⟩
  calc (lex (q.source .compact comments).toList).tokens.map Placed.item
      = tokens (q.pieces .compact comments) := hcompactTokens
    _ = tokens (q.pieces .spaced comments) := tokens_layout _ _ comments q
    _ = (lex (q.source .spaced comments).toList).tokens.map Placed.item := hspacedTokens.symm

/-- A program in which much could run together: signs without operands and with three, signs before
signs, and comments behind all of them. -/
def crowded : Program where
  headers := ["", "*/ // \"", "one\ntwo */"]
  routines := [
    ⟨"f", .unknown, [⟨"x", .unknown⟩, ⟨"Uint64", .string⟩],
      [⟨1, .evaluate (.operation (.arithmetic .div) [] .unknown)⟩, ⟨1, .comment "*"⟩,
        ⟨1, .comment "/ */"⟩, ⟨2, .evaluate (.operation (.bitwise .not) [.operation (.comparison .eq)
          [.operation (.bitwise .not) [.name "x"] .uint64, .value (.string "//"), .name "x"] .string]
          .unknown)⟩,
        ⟨2, .comment ""⟩, ⟨2, .noOp⟩,
        ⟨3, .branch (.operation (.comparison .lt) [.operation (.bitwise .shl) [.name "x", .value
          (.uint64 0)] .unknown, .call "f" []] .unknown) 3 (some 3)⟩],
      ["/*\n*/"]⟩]

theorem lex_generate_layout_crowded : crowded.Spellable ∧
    (lex (crowded.generate ⟨true, true, true⟩).code.toList).fault = none ∧
    (lex (crowded.generate ⟨true, true, false⟩).code.toList).fault = none ∧
    (lex (crowded.generate ⟨true, true, true⟩).code.toList).tokens.map Placed.item
      = (lex (crowded.generate ⟨true, true, false⟩).code.toList).tokens.map Placed.item := by
  have hp : crowded.Spellable := by decide +kernel
  exact ⟨hp, lex_generate_layout hp true true⟩

end Program

end ContractBasic
