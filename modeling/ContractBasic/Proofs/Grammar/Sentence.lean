/-
Sentences of the grammar.

A row of tokens is a sentence if a regular tree without comments has it as its signs; keywords may
stand in any case of letters.  The parser looks one token ahead and never goes back, and yet it finds
the tree of every sentence.  So no sentence has two trees: what is read from the row is the one as well
as the other.

* `ParseTree.Derives` — a tree has a row of tokens as its signs
* `ParseTree.Derives.unique` — a sentence has one tree, up to offsets
* `ofSource_of_derives` — a text that is a sentence is accepted, with its one tree
* `exists_ofSource_iff` — the texts without comments that are accepted are the sentences
-/
import ContractBasic.Proofs.Grammar.Completeness
import ContractBasic.Proofs.Grammar.Remarks

namespace ContractBasic

/-! ### Rows without comments -/

namespace ParseTree

/-- Whether a tree derives a row of tokens: it has no comments, its expressions have the shape that the
layers of operators give them, its declarations have names and types, its bare expressions do not start
like something else, and the tokens stand for its signs. -/
structure Derives (t : ParseTree) (ts : List Token) : Prop where
  bare : t.remarks = []
  regular : t.Regular
  fits : List.Forall₂ Sign.Fits t.signs ts

theorem Routine.row_of_remarks_eq_nil {r : Routine} (h : r.remarks = []) : r.row = r.signs := by
  rw [remarks, List.append_eq_nil_iff, List.append_eq_nil_iff] at h
  obtain ⟨⟨hcomments, hparams⟩, hlines⟩ := h
  have hparam : (r.params.map Param.tokens).map (List.map .token) = r.params.map Param.signs := by
    rw [List.map_map]
    refine List.map_congr_left fun p hp => ?_
    rw [Function.comp_apply, Param.tokens, List.flatMap_eq_nil_iff.mp hparams p hp]
    rfl
  have hline : ∀ l ∈ r.lines, l.row = l.signs := by
    intro l hl
    rw [Line.row, List.flatMap_eq_nil_iff.mp hlines l hl]
    exact List.append_nil _
  have hhead : r.headTokens.map Sign.token
      = [.word "Function", .word r.name, .token .lparen] ++
        separated (.token .comma) (r.params.map Param.signs) ++
        [.token .rparen, .word r.returnType.keyword] := by
    rw [headTokens, hcomments, List.map_append, List.map_append, map_separated, hparam]
    rfl
  rw [row, signs, openSigns, hhead, List.flatMap_congr hline]

/-- Without comments the row of a tree is that of its signs. -/
theorem row_of_remarks_eq_nil {t : ParseTree} (h : t.remarks = []) : t.row = t.signs := by
  rw [remarks, List.append_eq_nil_iff] at h
  obtain ⟨hroutines, htrailing⟩ := h
  have hroutine : ∀ r ∈ t.routines, r.row = r.signs := fun r hr =>
    Routine.row_of_remarks_eq_nil (List.flatMap_eq_nil_iff.mp hroutines r hr)
  rw [row, signs, htrailing, List.flatMap_congr hroutine]
  exact List.append_nil _

/-! ### Trees of a row -/

theorem Derives.fits_row {t : ParseTree} {ts : List Token} (h : t.Derives ts) :
    List.Forall₂ Sign.Fits t.row ts := by
  rw [row_of_remarks_eq_nil h.bare]
  exact h.fits

/-- No row of tokens has two trees: what is read from the row is the one as well as the other. -/
theorem Derives.unique {t u : ParseTree} {ts : List Token} (ht : t.Derives ts) (hu : u.Derives ts) :
    t.unplaced = u.unplaced := by
  -- the state after the row holds the one tree and the other
  have hread := Grammar.State.read_row ht.regular ht.fits_row
  rw [Grammar.State.read_row hu.regular hu.fits_row, Option.some_inj, Grammar.State.mk.injEq,
    Grammar.Place.outside.injEq] at hread
  exact (ParseTree.mk.injEq _ _ _ _).mpr ⟨hread.1.symm, hread.2.symm⟩

/-! ### Offsets -/

theorem remarks_unplaced (t : ParseTree) : t.unplaced.remarks = t.remarks.map Placed.unplaced := by
  have hroutine : ∀ r : Routine, r.unplaced.remarks = r.remarks.map Placed.unplaced := by
    intro r
    simp [Routine.remarks, Routine.unplaced, Param.unplaced, Line.unplaced, List.flatMap_map,
      List.map_flatMap]
  simp [remarks, unplaced, hroutine, List.flatMap_map, List.map_flatMap]

theorem signs_unplaced (t : ParseTree) : t.unplaced.signs = t.signs := by
  have hroutine : ∀ r : Routine, r.unplaced.signs = r.signs := by
    intro r
    rw [Routine.signs, Routine.signs, Routine.openSigns, Routine.unplaced, List.map_map,
      List.flatMap_map]
    rfl
  simp [signs, unplaced, hroutine, List.flatMap_map]

theorem regular_unplaced {t : ParseTree} : t.unplaced.Regular ↔ t.Regular := by
  have hroutine : ∀ r : Routine, r.unplaced.Regular ↔ r.Regular := by
    intro r
    constructor
    · rintro ⟨hparams, hreturn, hlines⟩
      exact ⟨fun p hp => hparams p.unplaced (List.mem_map_of_mem hp), hreturn,
        fun l hl => hlines l.unplaced (List.mem_map_of_mem hl)⟩
    · rintro ⟨hparams, hreturn, hlines⟩
      refine ⟨?_, hreturn, ?_⟩
      · intro p hp
        obtain ⟨p, hp', rfl⟩ := List.mem_map.mp hp
        exact hparams p hp'
      · intro l hl
        obtain ⟨l, hl', rfl⟩ := List.mem_map.mp hl
        exact hlines l hl'
  simp [Regular, unplaced, hroutine]

/-- What a tree derives does not hang on its offsets. -/
theorem derives_unplaced {t : ParseTree} {ts : List Token} : t.unplaced.Derives ts ↔ t.Derives ts := by
  constructor
  · rintro ⟨hbare, hregular, hfits⟩
    rw [remarks_unplaced, List.map_eq_nil_iff] at hbare
    exact ⟨hbare, regular_unplaced.mp hregular, signs_unplaced t ▸ hfits⟩
  · rintro ⟨hbare, hregular, hfits⟩
    refine ⟨?_, regular_unplaced.mpr hregular, (signs_unplaced t).symm ▸ hfits⟩
    rw [remarks_unplaced, hbare, List.map_nil]

theorem Derives.of_unplaced {t u : ParseTree} {ts : List Token} (h : t.Derives ts)
    (heq : u.unplaced = t.unplaced) : u.Derives ts :=
  derives_unplaced.mp (heq ▸ derives_unplaced.mpr h)

end ParseTree

/-! ### Deciding what a tree derives -/

namespace ParseTree

mutual

/-- Whether an expression has canonical shape, by a walk over it. -/
def Expr.isCanonical : Expr → Bool
  | .number _ | .text _ | .name _ => true
  | .call _ args => Expr.areCanonical args
  | .paren e => e.isCanonical
  | .not e => e.isPrimary && e.isCanonical
  | .binary o l r =>
    !o.isUnary && decide (o.layer ≤ l.layer) && decide (o.layer < r.layer) && l.isCanonical &&
      r.isCanonical

/-- Whether each of several expressions has canonical shape. -/
def Expr.areCanonical : List Expr → Bool
  | [] => true
  | e :: es => e.isCanonical && Expr.areCanonical es

end

theorem Expr.areCanonical_eq_all (es : List Expr) : areCanonical es = es.all isCanonical := by
  induction es with
  | nil => rfl
  | cons e es ih => rw [areCanonical, ih, List.all_cons]

theorem Expr.isCanonical_iff : ∀ e : Expr, e.isCanonical = true ↔ e.Canonical
  | .number n => ⟨fun _ => .number n, fun _ => by rw [isCanonical]⟩
  | .text s => ⟨fun _ => .text s, fun _ => by rw [isCanonical]⟩
  | .name n => ⟨fun _ => .name n, fun _ => by rw [isCanonical]⟩
  | .call f args => by
    -- stated for the arguments before the list is opened, so that the recursion is seen to descend
    have hargs : ∀ a ∈ args, a.isCanonical = true ↔ a.Canonical := fun a _ => isCanonical_iff a
    rw [isCanonical, areCanonical_eq_all, List.all_eq_true]
    constructor
    · exact fun h => .call f fun a ha => (hargs a ha).mp (h a ha)
    · rintro ⟨⟩
      rename_i h
      exact fun a ha => (hargs a ha).mpr (h a ha)
  | .paren e => by
    rw [isCanonical, isCanonical_iff e]
    constructor
    · exact .paren
    · rintro ⟨⟩
      assumption
  | .not e => by
    rw [isCanonical, Bool.and_eq_true, isCanonical_iff e]
    constructor
    · exact fun ⟨hprimary, he⟩ => .not hprimary he
    · rintro ⟨⟩
      exact ⟨‹_›, ‹_›⟩
  | .binary o l r => by
    rw [isCanonical, Bool.and_eq_true, Bool.and_eq_true, Bool.and_eq_true, Bool.and_eq_true,
      isCanonical_iff l, isCanonical_iff r, decide_eq_true_iff, decide_eq_true_iff,
      Bool.not_eq_true']
    constructor
    · exact fun ⟨⟨⟨⟨ho, hleft⟩, hright⟩, hl⟩, hr⟩ => .binary ho hleft hright hl hr
    · rintro ⟨⟩
      exact ⟨⟨⟨⟨‹_›, ‹_›⟩, ‹_›⟩, ‹_›⟩, ‹_›⟩

instance : DecidablePred Expr.Canonical := fun e =>
  decidable_of_iff (e.isCanonical = true) e.isCanonical_iff

/-- The names and the type of a declaration. -/
def Stmt.declaration? : Stmt → Option (List String × ValueType)
  | dim names type => some (names, type)
  | _ => none

/-- The expression that is a whole statement. -/
def Stmt.bare? : Stmt → Option Expr
  | evaluate e => some e
  | _ => none

instance : DecidablePred Stmt.Regular := fun s =>
  decidable_of_iff ((∀ e ∈ s.expression?, e.Canonical) ∧
    (∀ d ∈ s.declaration?, d.1 ≠ [] ∧ d.2 ≠ .unknown) ∧
    ∀ e ∈ s.bare?, ∀ t ∈ e.tokens.head?, t.claimsLine = false) (by
    constructor
    · rintro ⟨hcanonical, hdim, hbare⟩
      refine ⟨hcanonical, ?_, ?_⟩
      · rintro names type rfl
        exact hdim (names, type) rfl
      · rintro e rfl
        exact hbare e rfl
    · rintro ⟨hcanonical, hdim, hevaluate⟩
      refine ⟨hcanonical, ?_, ?_⟩
      · intro d hd
        cases s <;> cases hd
        exact hdim _ _ rfl
      · intro e he
        cases s <;> cases he
        exact hevaluate e rfl)

instance : DecidablePred Routine.Regular := fun r =>
  decidable_of_iff ((∀ p ∈ r.params, p.type ≠ .unknown) ∧ r.returnType ≠ .unknown ∧
    ∀ l ∈ r.lines, ∀ s ∈ l.statement, s.Regular)
    ⟨fun ⟨h₁, h₂, h₃⟩ => ⟨h₁, h₂, h₃⟩, fun h => ⟨h.params, h.returnType, h.lines⟩⟩

instance (g : Sign) (t : Token) : Decidable (g.Fits t) :=
  match g with
  | .token u => inferInstanceAs (Decidable (t = u))
  | .keyword k => inferInstanceAs (Decidable (t.isKeyword k = true))

instance (t : ParseTree) (ts : List Token) : Decidable (t.Derives ts) :=
  decidable_of_iff (t.remarks = [] ∧ (∀ r ∈ t.routines, r.Regular) ∧
    t.signs.length = ts.length ∧ ∀ x ∈ t.signs.zip ts, x.1.Fits x.2) (by
    constructor
    · rintro ⟨hbare, hregular, hlength, hfits⟩
      exact ⟨hbare, hregular, List.forall₂_iff_zip.mpr ⟨hlength, fun hx => hfits _ hx⟩⟩
    · rintro ⟨hbare, hregular, hfits⟩
      obtain ⟨hlength, hfits⟩ := List.forall₂_iff_zip.mp hfits
      exact ⟨hbare, hregular, hlength, fun x hx => hfits hx⟩)

end ParseTree

/-! ### Sentences are accepted -/

/-- **Every sentence is accepted, with exactly one tree.**  Where the tokens of a text are the signs of a
tree, the text is accepted with this tree up to offsets; and the trees that derive the tokens are those
that differ from it in offsets alone. -/
theorem ofSource_of_derives {source : String} {t : ParseTree}
    (hfault : (lex source.toList).fault = none)
    (ht : t.Derives ((lex source.toList).tokens.map Placed.item)) :
    ∃ t', ParseTree.ofSource source = .ok t' ∧ t'.unplaced = t.unplaced ∧
      ∀ u : ParseTree, u.Derives ((lex source.toList).tokens.map Placed.item) ↔
        u.unplaced = t'.unplaced := by
  obtain ⟨t', hparse, hsame⟩ := parse_of_row ht.regular hfault ht.fits_row
  refine ⟨t', ofSource_eq_ok.mpr hparse, hsame, fun u => ⟨fun hu => ?_, fun hu => ?_⟩⟩
  · rw [hsame, hu.unique ht]
  · exact ht.of_unplaced (hu.trans hsame)

/-- A sentence with keywords in small letters, one of them as a name, operators of several layers, a
group and a call as operands, a bare expression, and a line that holds nothing. -/
def sentence : String :=
  "Function f(a Uint64) Uint64 1 dim x,y as String
  2 if then&!g((a|1)^2,\"\")<<3+4*a then goto 2 else Goto 1
  3 f() 4 End Function"

/-- The tree of the sentence. -/
def sentenceTree : ParseTree where
  routines := [
    ⟨"f", 0, [⟨"a", .uint64, []⟩], .uint64, [],
      [⟨1, 0, some (.dim ["x", "y"] .string), []⟩,
        ⟨2, 0, some (.branch (.binary (.bitwise .and) (.name "then")
          (.binary (.bitwise .shl)
            (.not (.call "g" [.binary (.bitwise .xor)
              (.paren (.binary (.bitwise .or) (.name "a") (.number 1))) (.number 2), .text ""]))
            (.binary (.arithmetic .add) (.number 3)
              (.binary (.arithmetic .mul) (.number 4) (.name "a"))))) 2 (some 1)), []⟩,
        ⟨3, 0, some (.evaluate (.call "f" [])), []⟩,
        ⟨4, 0, none, []⟩]⟩]
  trailing := []

theorem ofSource_of_derives_sentence : (lex sentence.toList).fault = none ∧
    sentenceTree.Derives ((lex sentence.toList).tokens.map Placed.item) ∧
    ∃ t', ParseTree.ofSource sentence = .ok t' ∧ t'.unplaced = sentenceTree.unplaced ∧
      ∀ u : ParseTree, u.Derives ((lex sentence.toList).tokens.map Placed.item) ↔
        u.unplaced = t'.unplaced := by
  obtain ⟨hfault, ht⟩ : (lex sentence.toList).fault = none ∧
      sentenceTree.Derives ((lex sentence.toList).tokens.map Placed.item) := by
    decide +kernel
  exact ⟨hfault, ht, ofSource_of_derives hfault ht⟩

/-- The texts without comments that are accepted are the sentences. -/
theorem exists_ofSource_iff {source : String}
    (hbare : ∀ t ∈ (lex source.toList).tokens, t.item.isComment = false) :
    (∃ t, ParseTree.ofSource source = .ok t) ↔ (lex source.toList).fault = none ∧
      ∃ t : ParseTree, t.Derives ((lex source.toList).tokens.map Placed.item) := by
  constructor
  · rintro ⟨t, ht⟩
    have hparse := ofSource_eq_ok.mp ht
    obtain ⟨hregular, hfits⟩ := signs_of_parse hparse
    refine ⟨(parse_eq_ok hparse).1, t, ?_, hregular, ?_⟩
    · -- the comments of the tree are those of the text
      have hremarks : (lex source.toList).tokens.filterMap Placed.remark? = [] := by
        rw [List.filterMap_eq_nil_iff]
        intro x hx
        have hitem := hbare x hx
        obtain ⟨offset, item⟩ := x
        cases item with
        | comment raw => cases hitem
        | _ => rfl
      exact List.perm_nil.mp (hremarks ▸ remarks_of_parse hparse)
    · have hcode : codeTokens (lex source.toList).tokens
          = (lex source.toList).tokens.map Placed.item := by
        rw [codeTokens, List.filter_eq_self]
        intro x hx
        obtain ⟨y, hy, rfl⟩ := List.mem_map.mp hx
        simp [hbare y hy]
      rwa [hcode] at hfits
  · rintro ⟨hfault, t, ht⟩
    obtain ⟨t', hparse, -⟩ := parse_of_row ht.regular hfault ht.fits_row
    exact ⟨t', ofSource_eq_ok.mpr hparse⟩

end ContractBasic
