/-
Trees written out.

A tree stands for a row of signs: tokens as they are, and keywords in any case of letters.  This is
the grammar read from the tree to the text, and what the parser is measured against.

* `ParseTree.signs` — the row of signs of a tree, comments apart
* `Expr.Canonical` — what the layers of operators say about the shape of an expression
* `Stmt.Regular` — what the grammar says about a statement beyond its signs
-/
import ContractBasic.Grammar.Parser
import Mathlib.Data.List.Forall2

namespace ContractBasic

/-! ### Rows -/

/-- Rows with a separator between them. -/
def separated {α : Type} (separator : α) (rows : List (List α)) : List α :=
  (rows.intersperse [separator]).flatten

section Separated

variable {α : Type} (c : α)

@[simp] theorem separated_nil : separated c [] = [] := rfl

@[simp] theorem separated_singleton (row : List α) : separated c [row] = row := by
  simp [separated]

theorem separated_cons_cons (row next : List α) (rows : List (List α)) :
    separated c (row :: next :: rows) = row ++ c :: separated c (next :: rows) := by
  simp [separated, List.intersperse]

/-- A row is added at the end behind a separator, unless it is the first. -/
theorem separated_concat (rows : List (List α)) (last : List α) :
    separated c (rows ++ [last]) = rows.flatMap (· ++ [c]) ++ last := by
  induction rows with
  | nil => simp
  | cons row rows ih =>
    rcases rows with _ | ⟨next, rows⟩
    · simp [separated_cons_cons]
    · have h : separated c ((row :: next :: rows) ++ [last])
          = row ++ c :: separated c ((next :: rows) ++ [last]) := separated_cons_cons c _ _ _
      rw [h, ih]
      simp

theorem map_separated {β : Type} (f : α → β) (rows : List (List α)) :
    (separated c rows).map f = separated (f c) (rows.map (List.map f)) := by
  induction rows with
  | nil => simp
  | cons row rows ih =>
    rcases rows with _ | ⟨next, rows⟩
    · simp
    · rw [separated_cons_cons, List.map_append, List.map_cons, ih]
      exact (separated_cons_cons (f c) _ _ _).symm

theorem mem_separated {rows : List (List α)} {row : List α} (hrow : row ∈ rows) {x : α}
    (hx : x ∈ row) : x ∈ separated c rows := by
  induction rows with
  | nil => cases hrow
  | cons first rows ih =>
    rcases rows with _ | ⟨next, rows⟩
    · simpa using List.mem_singleton.mp hrow ▸ hx
    · rw [separated_cons_cons, List.mem_append, List.mem_cons]
      rcases List.mem_cons.mp hrow with rfl | hrow
      · exact .inl hx
      · exact .inr (.inr (ih hrow))

theorem mem_of_mem_separated {rows : List (List α)} {x : α} (hx : x ∈ separated c rows) :
    x = c ∨ ∃ row ∈ rows, x ∈ row := by
  induction rows with
  | nil => cases hx
  | cons first rows ih =>
    rcases rows with _ | ⟨next, rows⟩
    · exact .inr ⟨first, List.mem_cons_self, by simpa using hx⟩
    · rw [separated_cons_cons, List.mem_append, List.mem_cons] at hx
      rcases hx with hx | rfl | hx
      · exact .inr ⟨first, List.mem_cons_self, hx⟩
      · exact .inl rfl
      · rcases ih hx with rfl | ⟨row, hrow, hx⟩
        · exact .inl rfl
        · exact .inr ⟨row, List.mem_cons_of_mem _ hrow, hx⟩

theorem filter_separated {p : α → Bool} (hc : p c = true) (rows : List (List α)) :
    (separated c rows).filter p = separated c (rows.map (List.filter p)) := by
  induction rows with
  | nil => simp
  | cons row rows ih =>
    rcases rows with _ | ⟨next, rows⟩
    · simp
    · rw [separated_cons_cons, List.filter_append, List.filter_cons_of_pos hc, ih]
      exact (separated_cons_cons c _ _ _).symm

end Separated

/-! ### Signs -/

/-- What is written at one place: a token as it is, or a keyword, given in capitals. -/
inductive Sign where
  | token (t : Token)
  | keyword (k : String)
deriving DecidableEq, Repr

namespace Sign

/-- Whether a token of a text can stand for a sign. -/
def Fits : Sign → Token → Prop
  | token u, t => t = u
  | keyword k, t => t.isKeyword k = true

@[simp] theorem fits_token {t u : Token} : (token u).Fits t ↔ t = u := Iff.rfl

@[simp] theorem fits_keyword {k : String} {t : Token} :
    (keyword k).Fits t ↔ t.isKeyword k = true := Iff.rfl

/-- A word. -/
def word (w : String) : Sign := token (.word w)

/-- A number. -/
def number (n : UInt64) : Sign := token (.number n)

/-- Tokens that stand for two rows of signs are those of the first and those of the second. -/
theorem forall₂_append {a b : List Sign} {ts : List Token} :
    List.Forall₂ Fits (a ++ b) ts ↔
      ∃ us vs, ts = us ++ vs ∧ List.Forall₂ Fits a us ∧ List.Forall₂ Fits b vs := by
  constructor
  · intro h
    induction a generalizing ts with
    | nil => exact ⟨[], ts, rfl, .nil, h⟩
    | cons g a ih =>
      obtain ⟨t, ts', ht, h', rfl⟩ := List.forall₂_cons_left_iff.mp h
      obtain ⟨us, vs, rfl, hus, hvs⟩ := ih h'
      exact ⟨t :: us, vs, rfl, .cons ht hus, hvs⟩
  · rintro ⟨us, vs, rfl, hus, hvs⟩
    exact List.rel_append hus hvs

/-- Tokens as they are stand only for themselves. -/
theorem forall₂_map_token {us ts : List Token} :
    List.Forall₂ Fits (us.map token) ts ↔ ts = us := by
  rw [List.forall₂_map_left_iff]
  constructor
  · intro h
    induction h with
    | nil => rfl
    | cons ht _ ih => rw [fits_token.mp ht, ih]
  · rintro rfl
    exact List.forall₂_same.mpr fun t _ => rfl

/-- A token as it is stands in the text. -/
theorem mem_of_fits {gs : List Sign} {ts : List Token} (h : List.Forall₂ Fits gs ts) {t : Token}
    (ht : token t ∈ gs) : t ∈ ts := by
  induction h with
  | nil => cases ht
  | @cons g u gs ts hfits _ ih =>
    rcases List.mem_cons.mp ht with rfl | ht
    · exact fits_token.mp hfits ▸ List.mem_cons_self
    · exact List.mem_cons_of_mem _ (ih ht)

end Sign

/-- The tokens of a row without its comments. -/
def codeTokens (ts : List (Placed Token)) : List Token :=
  (ts.map Placed.item).filter fun t => !t.isComment

namespace ParseTree

/-! ### Expressions -/

mutual

/-- The tokens of an expression. -/
def Expr.tokens : Expr → List Token
  | .number n => [.number n]
  | .text s => [.text s]
  | .name n => [.word n]
  | .call f args => .word f :: .lparen :: separated .comma (Expr.tokensOf args) ++ [.rparen]
  | .paren e => .lparen :: e.tokens ++ [.rparen]
  | .not e => .operator (.bitwise .not) :: e.tokens
  | .binary o l r => l.tokens ++ .operator o :: r.tokens

/-- The tokens of each of several expressions. -/
def Expr.tokensOf : List Expr → List (List Token)
  | [] => []
  | e :: es => e.tokens :: Expr.tokensOf es

end

namespace Expr

theorem tokensOf_eq_map (es : List Expr) : tokensOf es = es.map tokens := by
  induction es with
  | nil => rfl
  | cons e es ih => rw [tokensOf, ih, List.map_cons]

/-- Whether an expression is an operand without `!` before it. -/
def isPrimary : Expr → Bool
  | not _ | binary _ _ _ => false
  | _ => true

/-- How tightly the outermost chain binds; an operand binds tighter than every chain. -/
def layer : Expr → Nat
  | binary o _ _ => o.layer
  | _ => 8

/-- The shape that the layers of operators give an expression.  An operation takes everything of its
own layer to its left, and to its right only what binds tighter; `!` takes a primary. -/
inductive Canonical : Expr → Prop
  | number (n : UInt64) : Canonical (.number n)
  | text (s : String) : Canonical (.text s)
  | name (n : String) : Canonical (.name n)
  | call (f : String) {args : List Expr} : (∀ a ∈ args, Canonical a) → Canonical (.call f args)
  | paren {e : Expr} : Canonical e → Canonical (.paren e)
  | not {e : Expr} : e.isPrimary = true → Canonical e → Canonical (.not e)
  | binary {o : Operator} {l r : Expr} : o.isUnary = false → o.layer ≤ l.layer →
      o.layer < r.layer → Canonical l → Canonical r → Canonical (.binary o l r)

end Expr

end ParseTree

/-- The words that declare a type are the keywords of the types that can be declared. -/
theorem ValueType.ofKeyword?_eq_some {w : String} {type : ValueType} :
    ofKeyword? w = some type ↔ w = type.keyword ∧ type ≠ .unknown := by
  by_cases hn : "Uint64" = w
  · subst hn
    cases type <;> decide
  · by_cases hs : "String" = w
    · subst hs
      cases type <;> decide
    · have hw : ofKeyword? w = none := by simp [ofKeyword?, keyword, hn, hs]
      rw [hw]
      cases type <;> simp [keyword, Ne.symm hn, Ne.symm hs]

/-- Operators between two operands bind looser than an operand. -/
theorem Operator.layer_lt {o : Operator} (h : o.isUnary = false) : o.layer < 8 := by
  rcases o with c | a | b
  · cases c <;> decide
  · cases a <;> decide
  · cases b <;> first | decide | simp [isUnary] at h

/-! ### Statements -/

/-- The keywords that open a statement. -/
def statementKeywords : List String := ["DIM", "LET", "GOTO", "IF", "RETURN"]

namespace Token

/-- Whether a token inside a function stands at the end of a line: it opens the next one or ends the
function. -/
def endsLine : Token → Bool
  | number _ => true
  | word w => w = "End"
  | _ => false

/-- Whether a token is the keyword of a statement. -/
def opensStatement : Token → Bool
  | word w => statementKeywords.contains w.toUpper
  | _ => false

/-- Whether a token behind a line number says that no bare expression stands there. -/
def claimsLine (t : Token) : Bool := t.endsLine || t.opensStatement

end Token

namespace ParseTree

/-- The signs of an expression. -/
def Expr.signs (e : Expr) : List Sign := e.tokens.map .token

/-- The signs of a row of names. -/
def nameSigns (names : List String) : List Sign :=
  separated (.token .comma) (names.map fun n => [.word n])

namespace Stmt

/-- The signs of a statement. -/
def signs : Stmt → List Sign
  | dim names type =>
    .keyword "DIM" :: nameSigns names ++ [.keyword "AS", .word type.keyword]
  | assign n e => [.keyword "LET", .word n, .token .assign] ++ e.signs
  | goto n => [.keyword "GOTO", .number n]
  | branch c n otherwise =>
    .keyword "IF" :: c.signs ++ [.keyword "THEN", .keyword "GOTO", .number n] ++
      match otherwise with
      | none => []
      | some m => [.keyword "ELSE", .keyword "GOTO", .number m]
  | result e => .keyword "RETURN" :: e.signs
  | evaluate e => e.signs

/-- The expression of a statement. -/
def expression? : Stmt → Option Expr
  | dim _ _ | goto _ => none
  | assign _ e | branch e _ _ | result e | evaluate e => some e

/-- What the grammar says about a statement beyond its signs: its expression has canonical shape, a
declaration has names and a declarable type, and a bare expression does not start like something
else. -/
structure Regular (s : Stmt) : Prop where
  canonical : ∀ e ∈ s.expression?, e.Canonical
  dim : ∀ names type, s = .dim names type → names ≠ [] ∧ type ≠ .unknown
  evaluate : ∀ e, s = .evaluate e → ∀ t ∈ e.tokens.head?, t.claimsLine = false

end Stmt

/-! ### Whole trees -/

/-- The signs of a line. -/
def Line.signs (l : Line) : List Sign :=
  .number l.number :: (l.statement.map Stmt.signs).getD []

/-- The signs of a parameter. -/
def Param.signs (p : Param) : List Sign := [.word p.name, .word p.type.keyword]

/-- The signs of a function up to its last line. -/
def Routine.openSigns (r : Routine) : List Sign :=
  [.word "Function", .word r.name, .token .lparen] ++
    separated (.token .comma) (r.params.map Param.signs) ++
    [.token .rparen, .word r.returnType.keyword] ++ r.lines.flatMap Line.signs

/-- The signs of a function. -/
def Routine.signs (r : Routine) : List Sign :=
  r.openSigns ++ [.word "End", .word "Function"]

/-- The expressions of a function. -/
def Routine.expressions (r : Routine) : List Expr :=
  r.lines.filterMap fun l => l.statement.bind Stmt.expression?

/-- What the grammar says about a function beyond its signs. -/
structure Routine.Regular (r : Routine) : Prop where
  params : ∀ p ∈ r.params, p.type ≠ .unknown
  returnType : r.returnType ≠ .unknown
  lines : ∀ l ∈ r.lines, ∀ s ∈ l.statement, s.Regular

end ParseTree

namespace ParseTree

/-- The signs of a tree, comments apart. -/
def signs (t : ParseTree) : List Sign := t.routines.flatMap Routine.signs

/-- The expressions of a tree. -/
def expressions (t : ParseTree) : List Expr := t.routines.flatMap Routine.expressions

/-- What the grammar says about a tree beyond its signs. -/
def Regular (t : ParseTree) : Prop := ∀ r ∈ t.routines, r.Regular

end ParseTree

end ContractBasic
