/-
The tree that a program is printed as.

A printed program is the row of signs of a tree: nested operations stand in parentheses, an item
stands on a line of its own, and a comment behind an item belongs to the line of the item.

* `Expression.HasArity`, `Expression.IsTyped` — operations as a tree can hold them
* `Expression.tree`, `Item.lines`, `Program.tree` — the tree of a program
* `Program.row_tree` — what is printed is the row of the tree
-/
import ContractBasic.Proofs.Grammar.Completeness
import ContractBasic.Proofs.Print.Legible

namespace ContractBasic

open ParseTree Piece

/-! ### Expressions -/

namespace Expression

/-- Whether an operation has as many operands as its operator takes. -/
def HasArity : Expression → Prop
  | .operation o operands _ => operands.length = if o.isUnary then 1 else 2
  | _ => True

/-- Whether the type of an operation is the one that its operands reveal. -/
def IsTyped : Expression → Prop
  | .operation o [e] type => type = o.resultType none e.hint
  | .operation o [l, r] type => type = o.resultType l.hint r.hint
  | _ => True

instance : DecidablePred HasArity
  | .operation o operands _ =>
    inferInstanceAs (Decidable (operands.length = if o.isUnary then 1 else 2))
  | .value _ | .name _ | .call _ _ => isTrue trivial

instance : DecidablePred IsTyped
  | .operation o [e] type => inferInstanceAs (Decidable (type = o.resultType none e.hint))
  | .operation o [l, r] type => inferInstanceAs (Decidable (type = o.resultType l.hint r.hint))
  | .operation _ [] _ | .operation _ (_ :: _ :: _ :: _) _ => isTrue trivial
  | .value _ | .name _ | .call _ _ => isTrue trivial

mutual

/-- The tree of an expression; `nested` says that it is an operand.  An operation with another
number of operands than its operator takes has no tree, and an empty text stands in for it. -/
def tree (nested : Bool) : Expression → Expr
  | .value (.uint64 n) => .number n
  | .value (.string s) => .text s
  | .name n => .name n
  | .call f args => .call f (treesOf false args)
  | .operation o operands _ =>
    let whole :=
      match treesOf true operands with
      | [e] => .not e
      | [l, r] => .binary o l r
      | _ => .text ""
    if nested then .paren whole else whole

/-- The trees of several expressions. -/
def treesOf (nested : Bool) : List Expression → List Expr
  | [] => []
  | e :: es => tree nested e :: treesOf nested es

end

theorem treesOf_eq_map (nested : Bool) (es : List Expression) :
    treesOf nested es = es.map (tree nested) := by
  induction es with
  | nil => rfl
  | cons e es ih => rw [treesOf, ih, List.map_cons]

theorem ofTrees_eq_map (es : List Expr) : ofTrees es = es.map ofTree := by
  induction es with
  | nil => rfl
  | cons e es ih => rw [ofTrees, ih, List.map_cons]

/-- Operations come with one operand behind `!`, or with two. -/
theorem HasArity.cases {o : Operator} {operands : List Expression} {type : ValueType}
    (h : (operation o operands type).HasArity) :
    (o = .bitwise .not ∧ ∃ e, operands = [e]) ∨
      o.isUnary = false ∧ ∃ l r, operands = [l, r] := by
  simp only [HasArity] at h
  cases ho : o.isUnary with
  | true =>
    rw [ho, if_pos rfl] at h
    exact .inl ⟨by simpa [Operator.isUnary] using ho, List.length_eq_one_iff.mp h⟩
  | false =>
    rw [ho, if_neg (by simp)] at h
    exact .inr ⟨rfl, List.length_eq_two.mp h⟩

theorem forall_nodes_call {P : Expression → Prop} {f : String} {args : List Expression} :
    (∀ n ∈ (call f args).nodes, P n) ↔ (∀ a ∈ args, ∀ n ∈ a.nodes, P n) ∧ P (call f args) := by
  simp only [nodes_call, List.mem_append, List.mem_flatMap, List.mem_singleton, or_imp,
    forall_and, forall_eq, forall_exists_index, and_imp]
  exact and_congr_left' ⟨fun h a ha n hn => h n a ha hn, fun h n a ha hn => h a ha n hn⟩

theorem forall_nodes_operation {P : Expression → Prop} {o : Operator}
    {operands : List Expression} {type : ValueType} :
    (∀ n ∈ (operation o operands type).nodes, P n) ↔
      (∀ a ∈ operands, ∀ n ∈ a.nodes, P n) ∧ P (operation o operands type) := by
  simp only [nodes_operation, List.mem_append, List.mem_flatMap, List.mem_singleton, or_imp,
    forall_and, forall_eq, forall_exists_index, and_imp]
  exact and_congr_left' ⟨fun h a ha n hn => h n a ha hn, fun h n a ha hn => h a ha n hn⟩

/-- The tree of an operand is a primary. -/
theorem isPrimary_tree (e : Expression) : (e.tree true).isPrimary = true := by
  cases e with
  | value l => cases l <;> rfl
  | operation o operands type => simp [tree, Expr.isPrimary]
  | _ => rfl

theorem layer_of_isPrimary {e : Expr} (h : e.isPrimary = true) : e.layer = 8 := by
  cases e <;> first | rfl | cases h

/-- The tree of an expression has canonical shape. -/
theorem canonical_tree {e : Expression} (he : ∀ n ∈ e.nodes, n.HasArity) (nested : Bool) :
    (e.tree nested).Canonical := by
  induction e generalizing nested with
  | value l =>
    cases l with
    | uint64 n => exact .number n
    | string s => exact .text s
  | name n => exact .name n
  | call f args ih =>
    obtain ⟨hargs, -⟩ := forall_nodes_call.mp he
    rw [tree, treesOf_eq_map]
    refine .call f ?_
    intro t ht
    obtain ⟨a, ha, rfl⟩ := List.mem_map.mp ht
    exact ih a ha (hargs a ha) false
  | operation o operands type ih =>
    obtain ⟨hoperands, harity⟩ := forall_nodes_operation.mp he
    -- operands stand nested and are primaries, so the layers of their operators are no matter
    have hwhole : ((operation o operands type).tree false).Canonical := by
      obtain ⟨rfl, e, rfl⟩ | ⟨ho, l, r, rfl⟩ := harity.cases
      · have h := ih e (by simp) (hoperands e (by simp)) true
        simpa [tree, treesOf] using Expr.Canonical.not (isPrimary_tree e) h
      · have hl := ih l (by simp) (hoperands l (by simp)) true
        have hr := ih r (by simp) (hoperands r (by simp)) true
        have hlayer := Operator.layer_lt ho
        have h := Expr.Canonical.binary ho
          (by rw [layer_of_isPrimary (isPrimary_tree l)]; omega)
          (by rw [layer_of_isPrimary (isPrimary_tree r)]; omega) hl hr
        simpa [tree, treesOf] using h
    cases nested with
    | false => exact hwhole
    | true => simpa [tree] using Expr.Canonical.paren hwhole

theorem tokens_join_comma (l : Layout) (parts : List (List Piece)) :
    tokens (join l.comma parts) = separated .comma (parts.map tokens) := by
  rw [tokens_join, tokens_comma]
  rfl

/-- What is printed for an expression are the tokens of its tree. -/
theorem tokens_pieces (l : Layout) {e : Expression} (he : ∀ n ∈ e.nodes, n.HasArity)
    (nested : Bool) : tokens (e.pieces l nested) = (e.tree nested).tokens := by
  induction e generalizing nested with
  | value v => cases v <;> simp [pieces, tree, Expr.tokens]
  | name n => simp [pieces, tree, Expr.tokens]
  | call f args ih =>
    obtain ⟨hargs, -⟩ := forall_nodes_call.mp he
    have hparts : args.map (tokens ∘ pieces l false) = args.map (Expr.tokens ∘ tree false) :=
      List.map_congr_left fun a ha => ih a ha (hargs a ha) false
    simp [pieces, tree, Expr.tokens, piecesOf_eq_map, treesOf_eq_map, Expr.tokensOf_eq_map,
      tokens_join_comma, hparts]
  | operation o operands type ih =>
    obtain ⟨hoperands, harity⟩ := forall_nodes_operation.mp he
    -- an operation is the same in both but for the parentheses around it
    have hwhole : tokens ((operation o operands type).pieces l false)
        = ((operation o operands type).tree false).tokens := by
      obtain ⟨rfl, e, rfl⟩ | ⟨ho, a, b, rfl⟩ := harity.cases
      · have h := ih e (by simp) (hoperands e (by simp)) true
        simp [pieces, piecesOf, tree, treesOf, Expr.tokens, h]
      · have ha := ih a (by simp) (hoperands a (by simp)) true
        have hb := ih b (by simp) (hoperands b (by simp)) true
        simp [pieces, piecesOf, tree, treesOf, Expr.tokens, join, List.intersperse, ha, hb]
    cases nested with
    | false => exact hwhole
    | true =>
      have hpieces := pieces_nested l o operands type
      have htree : (operation o operands type).tree true
          = .paren ((operation o operands type).tree false) := by simp [tree]
      rw [hpieces, htree, tokens_token, tokens_append, hwhole]
      rfl

/-- The tree of an expression stands for the expression. -/
theorem ofTree_tree {e : Expression} (he : ∀ n ∈ e.nodes, n.HasArity ∧ n.IsTyped)
    (nested : Bool) : ofTree (e.tree nested) = e := by
  induction e generalizing nested with
  | value v => cases v <;> rfl
  | name n => rfl
  | call f args ih =>
    obtain ⟨hargs, -⟩ := forall_nodes_call.mp he
    have hmap : args.map (ofTree ∘ tree false) = args.map id :=
      List.map_congr_left fun a ha => ih a ha (hargs a ha) false
    rw [tree, ofTree, treesOf_eq_map, ofTrees_eq_map, List.map_map, hmap, List.map_id]
  | operation o operands type ih =>
    obtain ⟨hoperands, harity, htyped⟩ := forall_nodes_operation.mp he
    -- the tree keeps no types; they are found again since the operation is typed by its operands
    have hwhole : ofTree ((operation o operands type).tree false) = operation o operands type := by
      obtain ⟨rfl, e, rfl⟩ | ⟨ho, a, b, rfl⟩ := harity.cases
      · have h := ih e (by simp) (hoperands e (by simp)) true
        have htype : type = Operator.resultType (.bitwise .not) none e.hint := htyped
        simp [tree, treesOf, ofTree, h, htype]
      · have ha := ih a (by simp) (hoperands a (by simp)) true
        have hb := ih b (by simp) (hoperands b (by simp)) true
        have htype : type = o.resultType a.hint b.hint := htyped
        simp [tree, treesOf, ofTree, ha, hb, htype]
    cases nested with
    | false => exact hwhole
    | true => simpa [tree, ofTree] using hwhole

end Expression

/-! ### Statements -/

/-- The tree of a statement; comments and empty lines have none. -/
def StatementKind.tree? : StatementKind → Option Stmt
  | .result e => some (.result (e.tree false))
  | .evaluate e => some (.evaluate (e.tree false))
  | .branch c n m => some (.branch (c.tree false) n m)
  | .dim n type => some (.dim [n] type)
  | .assign n e => some (.assign n (e.tree false))
  | .goto n => some (.goto n)
  | .noOp | .comment _ => none

/-- Whether the operations of a statement have as many operands as they take. -/
def Statement.HasArity (s : Statement) : Prop :=
  ∀ e ∈ s.kind.expression?, ∀ n ∈ e.nodes, n.HasArity

instance : DecidablePred Statement.HasArity := fun s =>
  inferInstanceAs (Decidable (∀ e ∈ s.kind.expression?, ∀ n ∈ e.nodes, n.HasArity))

theorem fits_append {a b : List Sign} {us vs : List Token} (ha : List.Forall₂ Sign.Fits a us)
    (hb : List.Forall₂ Sign.Fits b vs) : List.Forall₂ Sign.Fits (a ++ b) (us ++ vs) :=
  Sign.forall₂_append.mpr ⟨us, vs, rfl, ha, hb⟩

theorem fits_tokens (ts : List Token) : List.Forall₂ Sign.Fits (ts.map .token) ts :=
  Sign.forall₂_map_token.mpr rfl

/-- A keyword stands for itself. -/
theorem fits_keywords : ∀ k ∈ ["DIM", "AS", "LET", "GOTO", "IF", "THEN", "ELSE", "RETURN"],
    (Sign.keyword k).Fits (.word k) := by
  have h : ∀ k ∈ ["DIM", "AS", "LET", "GOTO", "IF", "THEN", "ELSE", "RETURN"],
      (Token.word k).isKeyword k = true := by decide +kernel
  exact h

theorem fits_dimPieces (l : Layout) (names : List String) (type : ValueType) :
    List.Forall₂ Sign.Fits (Stmt.dim names type).signs (tokens (dimPieces l names type)) := by
  have hnames : tokens (join l.comma (names.map fun n => [Piece.word n]))
      = separated Token.comma (names.map fun n => [.word n]) := by
    rw [Expression.tokens_join_comma, List.map_map]
    rfl
  have hsigns : List.Forall₂ Sign.Fits (nameSigns names)
      (separated Token.comma (names.map fun n => [.word n])) := by
    rw [Grammar.StmtReading.nameSigns_eq_map]
    exact fits_tokens _
  have htail : List.Forall₂ Sign.Fits [.keyword "AS", .word type.keyword]
      [.word "AS", .word type.keyword] :=
    .cons (fits_keywords "AS" (by simp)) (.cons rfl .nil)
  have h := List.Forall₂.cons (fits_keywords "DIM" (by simp)) (fits_append hsigns htail)
  simpa [Stmt.signs, dimPieces, hnames] using h

theorem fits_jumpPieces (n : UInt64) :
    List.Forall₂ Sign.Fits [.keyword "GOTO", .number n] (tokens (jumpPieces n)) :=
  .cons (fits_keywords "GOTO" (by simp)) (.cons rfl .nil)

/-- What is printed for a statement are the signs of its tree. -/
theorem StatementKind.fits_body (l : Layout) {s : Statement} (hs : s.HasArity) :
    List.Forall₂ Sign.Fits ((s.kind.tree?.map Stmt.signs).getD []) (tokens (s.kind.body l)) := by
  obtain ⟨line, kind⟩ := s
  -- expressions are printed as the very tokens of their trees, and keywords stand for themselves
  have hexpr : ∀ e, kind.expression? = some e →
      List.Forall₂ Sign.Fits (e.tree false).signs (tokens (e.pieces l false)) := by
    intro e he
    rw [Expression.tokens_pieces l (hs e he)]
    exact fits_tokens _
  cases kind with
  | noOp => exact .nil
  | comment text => exact .nil
  | result e => exact .cons (fits_keywords "RETURN" (by simp)) (hexpr e rfl)
  | evaluate e => exact hexpr e rfl
  | branch c n otherwise =>
    have hthen : List.Forall₂ Sign.Fits [.keyword "THEN", .keyword "GOTO", .number n]
        (.word "THEN" :: tokens (jumpPieces n)) :=
      .cons (fits_keywords "THEN" (by simp)) (fits_jumpPieces n)
    have h := List.Forall₂.cons (fits_keywords "IF" (by simp))
      (fits_append (hexpr c rfl) hthen)
    cases otherwise with
    | none => simpa [body, tree?, Stmt.signs] using h
    | some m =>
      have helse : List.Forall₂ Sign.Fits [.keyword "ELSE", .keyword "GOTO", .number m]
          (.word "ELSE" :: tokens (jumpPieces m)) :=
        .cons (fits_keywords "ELSE" (by simp)) (fits_jumpPieces m)
      simpa [body, tree?, Stmt.signs] using fits_append h helse
  | dim n type => exact fits_dimPieces l [n] type
  | assign n e =>
    exact .cons (fits_keywords "LET" (by simp)) (.cons rfl (.cons rfl (hexpr e rfl)))
  | goto n => exact fits_jumpPieces n

/-! ### Lines -/

namespace Item

/-- The statement of an item in its tree. -/
def stmt? : Item → Option Stmt
  | dims _ names type => some (.dim names type)
  | single s => s.kind.tree?

/-- The comment that an item is, as it is printed. -/
def written (followed : Bool) : Item → List Comment
  | single ⟨_, .comment text⟩ => [⟨0, writtenComment text followed⟩]
  | _ => []

/-- A line in front of others; `followed` says that the first of those continues it. -/
def attach (l : Line) (followed : Bool) : List Line → List Line
  | m :: ms => if followed then { l with comments := l.comments ++ m.comments } :: ms else l :: m :: ms
  | [] => [l]

/-- The lines of items. -/
def lines : List Item → List Line
  | [] => []
  | i :: rest =>
    let followed := opensWithComment i.line rest
    attach ⟨i.line, 0, i.stmt?, i.written followed⟩ followed (lines rest)

theorem lines_cons (i : Item) (rest : List Item) : lines (i :: rest)
    = attach ⟨i.line, 0, i.stmt?, i.written (opensWithComment i.line rest)⟩
        (opensWithComment i.line rest) (lines rest) := rfl

theorem attach_false (l : Line) (ls : List Line) : attach l false ls = l :: ls := by
  cases ls <;> rfl

/-- What is printed for an item on a line of its own. -/
theorem fits_pieces (l : Layout) (open? : Option UInt64) (followed : Bool) {i : Item}
    (hi : ∀ s ∈ i.statements, s.HasArity)
    (hopen : i.isComment = true → open? ≠ some i.line) :
    List.Forall₂ Sign.Fits (Line.row ⟨i.line, 0, i.stmt?, i.written followed⟩)
      (tokens (i.pieces l open? followed)) := by
  have hnumber : List.Forall₂ Sign.Fits [Sign.number i.line] [.number i.line] := .cons rfl .nil
  -- a comment has its number in front of it here, as no line of that number is open
  cases hc : i.isComment with
  | true =>
    obtain ⟨m, text, rfl⟩ := eq_comment_of_isComment hc
    have hne : open? ≠ some m := hopen rfl
    have h : tokens (Item.pieces l open? followed (.single ⟨m, .comment text⟩))
        = [.number m, .comment (writtenComment text followed)] := by
      simp only [Item.pieces, hne, if_false, tokens_append, tokens_linePieces,
        tokens_commentStart, tokens_commentPieces]
      rfl
    rw [h]
    exact .cons rfl (.cons rfl .nil)
  | false =>
    have hwritten : i.written followed = [] := by
      cases i with
      | dims m names type => rfl
      | single s =>
        obtain ⟨m, kind⟩ := s
        cases kind <;> first | rfl | cases hc
    have hrest : List.Forall₂ Sign.Fits ((i.stmt?.map Stmt.signs).getD []) (tokens (i.rest l)) := by
      cases i with
      | dims m names type => exact fits_dimPieces l names type
      | single s =>
        have h := StatementKind.fits_body l (hi s List.mem_cons_self)
        obtain ⟨m, kind⟩ := s
        cases kind <;> exact h
    rw [pieces_of_not_comment l _ _ hc, tokens_append, tokens_linePieces, hwritten]
    have h := fits_append hnumber hrest
    simpa [Line.row, Line.signs, commentTokens] using h

/-- The comment that continues a line. -/
theorem fits_pieces_comment (l : Layout) (n : UInt64) (text : String) (followed : Bool) :
    tokens (Item.pieces l (some n) followed (.single ⟨n, .comment text⟩))
      = [.comment (writtenComment text followed)] := by
  simp only [Item.pieces, if_true, List.nil_append, tokens_append, tokens_commentStart,
    tokens_commentPieces]

/-- Items that continue a line start with a line that holds comments and nothing else. -/
theorem lines_of_opensWithComment {n : UInt64} {items : List Item}
    (h : opensWithComment n items = true) :
    ∃ m ms, lines items = m :: ms ∧ m.number = n ∧ m.statement = none ∧ m.comments ≠ [] := by
  cases items with
  | nil => cases h
  | cons i rest =>
    obtain ⟨text, rfl⟩ := eq_comment_of_isCommentOn (i := i) (by simpa [opensWithComment] using h)
    -- whatever follows, the line that is put in front keeps its number and its comment
    have hattach : ∀ (c : Comment) (followed : Bool) (ls : List Line),
        ∃ m ms, attach ⟨n, 0, none, [c]⟩ followed ls = m :: ms ∧ m.number = n ∧
          m.statement = none ∧ m.comments ≠ [] := by
      intro c followed ls
      cases ls with
      | nil => exact ⟨_, _, rfl, rfl, rfl, by simp⟩
      | cons m ms => cases followed <;> exact ⟨_, _, rfl, rfl, rfl, by simp⟩
    exact hattach _ _ _

/-- What is printed for items.  Behind an item whose line goes on, the number of the first line of
the others is not printed again. -/
theorem fits_itemsPieces (l : Layout) (items : List Item)
    (hitems : ∀ i ∈ items, ∀ s ∈ i.statements, s.HasArity) :
    (∀ open?, (∀ n, open? = some n → opensWithComment n items = false) →
      List.Forall₂ Sign.Fits ((lines items).flatMap Line.row)
        (tokens (itemsPieces l open? items))) ∧
    (∀ n, opensWithComment n items = true → ∃ m ms, lines items = m :: ms ∧ m.number = n ∧
      m.statement = none ∧ List.Forall₂ Sign.Fits
        ((commentTokens m.comments).map .token ++ ms.flatMap Line.row)
        (tokens (itemsPieces l (some n) items))) := by
  -- both parts at once: items behind an item either start a line, or go on with the line of the
  -- item by a comment
  induction items with
  | nil => exact ⟨fun _ _ => .nil, nofun⟩
  | cons i rest ih =>
    obtain ⟨hline, hgoes⟩ := ih fun j hj => hitems j (List.mem_cons_of_mem _ hj)
    constructor
    · -- the item starts a line; comments behind it are printed on that line and belong to it
      intro open? hopen
      have hown := fits_pieces l open? (opensWithComment i.line rest)
        (hitems i List.mem_cons_self) (by
          rintro hi rfl
          have h := hopen i.line rfl
          simp [opensWithComment, isCommentOn_eq, hi] at h)
      rw [lines_cons, itemsPieces_cons, tokens_append]
      cases hfollowed : opensWithComment i.line rest with
      | false =>
        have hlater := hline (some i.line) (by rintro n ⟨⟩; exact hfollowed)
        rw [hfollowed] at hown
        rw [attach_false, List.flatMap_cons]
        exact fits_append hown hlater
      | true =>
        obtain ⟨m, ms, hm, -, -, hlater⟩ := hgoes i.line hfollowed
        rw [hfollowed] at hown
        have h := fits_append hown hlater
        simpa [hm, attach, Line.row, Line.signs, commentTokens] using h
    · -- the item is a comment that goes on with a line, so it prints no number
      intro n hn
      obtain ⟨text, rfl⟩ := eq_comment_of_isCommentOn (i := i) (by
        simpa [opensWithComment] using hn)
      have hrow : tokens (itemsPieces l (some n) (.single ⟨n, .comment text⟩ :: rest))
          = .comment (writtenComment text (opensWithComment n rest)) ::
            tokens (itemsPieces l (some n) rest) := by
        rw [itemsPieces_cons, tokens_append, fits_pieces_comment]
        rfl
      rw [lines_cons, hrow]
      change ∃ m ms, attach ⟨n, 0, none, [⟨0, writtenComment text (opensWithComment n rest)⟩]⟩
        (opensWithComment n rest) (lines rest) = m :: ms ∧ _
      cases hfollowed : opensWithComment n rest with
      | false =>
        have hlater := hline (some n) (by rintro n' ⟨⟩; exact hfollowed)
        refine ⟨_, _, attach_false _ _, rfl, rfl, ?_⟩
        exact .cons rfl hlater
      | true =>
        obtain ⟨m, ms, hm, -, -, hlater⟩ := hgoes n hfollowed
        refine ⟨⟨n, 0, none, ⟨0, writtenComment text true⟩ :: m.comments⟩, ms, ?_, rfl, rfl, ?_⟩
        · rw [hm]
          rfl
        · exact .cons rfl hlater

end Item

/-! ### Functions and programs -/

/-- The tree of a function. -/
def Routine.tree (r : Routine) : ParseTree.Routine where
  name := r.name
  offset := 0
  params := r.params.map fun p => ⟨p.name, p.type, []⟩
  returnType := r.returnType
  comments := r.comments.map fun text => ⟨0, writtenComment text false⟩
  lines := Item.lines (Item.ofStatements r.statements)

/-- The tree of a program. -/
def Program.tree (p : Program) : ParseTree where
  routines := p.routines.map Routine.tree
  trailing := p.headers.map fun text => ⟨0, writtenComment text false⟩

theorem Routine.tokens_heading (l : Layout) (r : Routine) :
    commentTokens r.tree.comments ++ tokens (r.heading l) = r.tree.headTokens := by
  have hparams : r.params.map (tokens ∘ fun p => [Piece.word p.name, .space, .word p.type.keyword])
      = (r.params.map fun p => ⟨p.name, p.type, []⟩).map ParseTree.Param.tokens := by
    rw [List.map_map]
    rfl
  simp [heading, tree, ParseTree.Routine.headTokens, Expression.tokens_join_comma, hparams]

/-- What is printed for a function is the row of its tree. -/
theorem Routine.fits_pieces (l : Layout) {r : Routine} (hr : ∀ s ∈ r.statements, s.HasArity) :
    List.Forall₂ Sign.Fits r.tree.row (tokens (r.pieces l true)) := by
  -- no line is open at the first item, so every line prints its number
  have hlines := (Item.fits_itemsPieces l (Item.ofStatements r.statements)
    fun i hi s hs => hr s (Item.mem_of_mem_statements hi hs)).1 none nofun
  have hcomments : ∀ texts : List String,
      tokens (texts.flatMap fun text => commentPieces text false ++ [newline])
        = commentTokens (texts.map fun text => ⟨0, writtenComment text false⟩) := by
    intro texts
    induction texts with
    | nil => rfl
    | cons text texts ih => simp [ih, commentTokens]
  have htokens : tokens (r.pieces l true) = r.tree.headTokens ++
      tokens (itemsPieces l none (Item.ofStatements r.statements)) ++
      [.word "End", .word "Function"] := by
    rw [← tokens_heading l]
    simp [pieces, tree, hcomments]
  rw [htokens]
  exact fits_append (fits_append (fits_tokens r.tree.headTokens) hlines)
    (fits_tokens [.word "End", .word "Function"])

/-- Separators without tokens leave the tokens of the parts. -/
theorem tokens_join_blank {separator : List Piece} (h : tokens separator = [])
    (parts : List (List Piece)) : tokens (join separator parts) = parts.flatMap tokens := by
  induction parts with
  | nil => rfl
  | cons ps parts ih =>
    rcases parts with _ | ⟨qs, parts⟩
    · simp
    · rw [join_cons_cons, tokens_append, tokens_append, h, ih, List.append_nil, List.flatMap_cons,
        List.flatMap_cons, List.flatMap_cons]

/-- **What is printed for a program is the row of its tree.** -/
theorem Program.fits_pieces (l : Layout) {p : Program}
    (hp : ∀ r ∈ p.routines, ∀ s ∈ r.statements, s.HasArity) :
    List.Forall₂ Sign.Fits p.tree.row (tokens (p.pieces l true)) := by
  have hheaders : tokens (headerPieces p.headers) = commentTokens p.tree.trailing := by
    rw [headerPieces, tokens_join_blank rfl, List.flatMap_map, tree, commentTokens, List.map_map]
    simp only [tokens_commentPieces, ← List.map_eq_flatMap]
    rfl
  have hroutines : List.Forall₂ Sign.Fits (p.tree.routines.flatMap ParseTree.Routine.row)
      ((p.routines.map (Routine.pieces l true)).flatMap tokens) := by
    rw [tree, List.flatMap_map, List.flatMap_map]
    generalize p.routines = routines at hp
    induction routines with
    | nil => exact .nil
    | cons r routines ih =>
      exact fits_append (Routine.fits_pieces l (hp r List.mem_cons_self))
        (ih fun q hq => hp q (List.mem_cons_of_mem _ hq))
  -- blank lines between the parts are no tokens
  have htokens : tokens (p.pieces l true) = (p.routines.map (Routine.pieces l true)).flatMap tokens
      ++ commentTokens p.tree.trailing := by
    rw [pieces, tokens_join_blank (tokens_separator l), List.flatMap_append, ← hheaders]
    by_cases hne : p.headers = [] <;> simp [hne, headerPieces]
  rw [htokens]
  exact fits_append hroutines (fits_tokens _)

end ContractBasic
