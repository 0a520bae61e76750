/-
The program of the tree that a program is printed as.

The tree of a program stands for the program but for blanks around comments and for empty lines, if
the parts of the program are such as a tree can hold; and then it is regular and takes up the same
lines.

* `Statement.Writable`, `Program.Writable` — what a text can hold
* `Item.readback`, `Program.readback` — what is read back, with comments trimmed and empty lines kept
  or dropped
* `Program.ofTree_tree` — the tree of a program stands for what the program is read back as
* `Program.checkLines_tree` — the tree takes up the lines of the program
-/
import ContractBasic.Proofs.Grammar.Uniqueness
import ContractBasic.Proofs.Print.Tree

namespace ContractBasic

open ParseTree Piece

/-! ### Statements -/

/-- The type that a statement declares. -/
def StatementKind.type? : StatementKind → Option ValueType
  | .dim _ type => some type
  | _ => none

/-- The expression that is a whole statement. -/
def StatementKind.bare? : StatementKind → Option Expression
  | .evaluate e => some e
  | _ => none

/-- The text of a comment. -/
def StatementKind.text? : StatementKind → Option String
  | .comment text => some text
  | _ => none

namespace Statement

/-- Whether the type of a declaration can be declared. -/
def Declarable (s : Statement) : Prop := ∀ type ∈ s.kind.type?, type ≠ .unknown

/-- Whether a bare expression is printed so that its first token does not claim the line for
something else. -/
def Unclaimed (s : Statement) : Prop :=
  ∀ e ∈ s.kind.bare?, ∀ t ∈ (tokens (e.pieces .spaced false)).head?, t.claimsLine = false

/-- Whether the operations of a statement have the types that their operands reveal. -/
def IsTyped (s : Statement) : Prop :=
  ∀ e ∈ s.kind.expression?, ∀ n ∈ e.nodes, n.IsTyped

/-- Whether a comment has a text that a comment can have. -/
def IsPlain (s : Statement) : Prop := ∀ text ∈ s.kind.text?, IsCommentText text

instance : DecidablePred Declarable := fun s =>
  inferInstanceAs (Decidable (∀ type ∈ s.kind.type?, type ≠ .unknown))

instance : DecidablePred Unclaimed := fun s =>
  inferInstanceAs (Decidable (∀ e ∈ s.kind.bare?,
    ∀ t ∈ (tokens (e.pieces .spaced false)).head?, t.claimsLine = false))

instance : DecidablePred IsTyped := fun s =>
  inferInstanceAs (Decidable (∀ e ∈ s.kind.expression?, ∀ n ∈ e.nodes, n.IsTyped))

end Statement

/-- The tree of a statement is regular but for its first token. -/
theorem StatementKind.shaped_tree {s : Statement} (harity : s.HasArity) (htype : s.Declarable) :
    ∀ t ∈ s.kind.tree?, t.Shaped := by
  obtain ⟨line, kind⟩ := s
  have hcanonical : ∀ e, kind.expression? = some e → (e.tree false).Canonical :=
    fun e he => Expression.canonical_tree (harity e he) false
  intro t ht
  cases kind with
  | noOp => cases ht
  | comment text => cases ht
  | result e => cases ht; exact ⟨by rintro _ ⟨⟩; exact hcanonical e rfl, nofun⟩
  | evaluate e => cases ht; exact ⟨by rintro _ ⟨⟩; exact hcanonical e rfl, nofun⟩
  | branch c n m => cases ht; exact ⟨by rintro _ ⟨⟩; exact hcanonical c rfl, nofun⟩
  | dim n type =>
    cases ht
    exact ⟨nofun, by rintro _ _ ⟨⟩; exact ⟨by simp, htype type rfl⟩⟩
  | assign n e => cases ht; exact ⟨by rintro _ ⟨⟩; exact hcanonical e rfl, nofun⟩
  | goto n => cases ht; exact ⟨nofun, nofun⟩

/-- A statement is printed with a claim on its line exactly if its tree has one. -/
theorem StatementKind.claim?_tree {s : Statement} (harity : s.HasArity) :
    s.Unclaimed ↔ ∀ t ∈ s.kind.tree?, t.claim? = none := by
  obtain ⟨line, kind⟩ := s
  cases kind with
  | evaluate e =>
    have htokens := Expression.tokens_pieces .spaced (harity e rfl)
    simp [Statement.Unclaimed, bare?, tree?, Stmt.claim?, htokens, Option.filter_eq_none_iff]
  | _ => simp [Statement.Unclaimed, bare?, tree?, Stmt.claim?]

/-- The tree of a statement stands for the statement. -/
theorem StatementKind.ofTree_tree {s : Statement} (harity : s.HasArity) (htyped : s.IsTyped)
    (h : s.kind.isExecutable = true) : ∃ t, s.kind.tree? = some t ∧ ofTree t = [s.kind] := by
  obtain ⟨line, kind⟩ := s
  have hexpr : ∀ e, kind.expression? = some e → Expression.ofTree (e.tree false) = e :=
    fun e he => Expression.ofTree_tree (fun n hn => ⟨harity e he n hn, htyped e he n hn⟩) false
  cases kind with
  | noOp => cases h
  | comment text => cases h
  | result e => exact ⟨_, rfl, by simp [ofTree, hexpr e rfl]⟩
  | evaluate e => exact ⟨_, rfl, by simp [ofTree, hexpr e rfl]⟩
  | branch c n m => exact ⟨_, rfl, by simp [ofTree, hexpr c rfl]⟩
  | dim n type => exact ⟨_, rfl, rfl⟩
  | assign n e => exact ⟨_, rfl, by simp [ofTree, hexpr e rfl]⟩
  | goto n => exact ⟨_, rfl, rfl⟩

/-! ### Lines -/

theorem cleanComments_append (as bs : List Comment) :
    cleanComments (as ++ bs) = cleanComments as ++ cleanComments bs := by
  simp [cleanComments]

theorem cleanComments_written {texts : List String} (h : ∀ text ∈ texts, IsCommentText text)
    (followed : Bool) :
    cleanComments (texts.map fun text => ⟨0, writtenComment text followed⟩) = texts := by
  induction texts with
  | nil => rfl
  | cons text texts ih =>
    have htext := h text List.mem_cons_self
    have hrest := ih fun t ht => h t (List.mem_cons_of_mem _ ht)
    rw [cleanComments, List.map_map] at hrest
    simp [cleanComments, cleanComment_writtenComment htext, htext.ne_empty]
    simpa using hrest

namespace Statement

/-- The comments of a line as statements. -/
def commentsOn (n : UInt64) (cs : List Comment) : List Statement :=
  (cleanComments cs).map fun text => ⟨n, .comment text⟩

@[simp] theorem commentsOn_nil (n : UInt64) : commentsOn n [] = [] := rfl

theorem commentsOn_append (n : UInt64) (as bs : List Comment) :
    commentsOn n (as ++ bs) = commentsOn n as ++ commentsOn n bs := by
  rw [commentsOn, cleanComments_append, List.map_append]
  rfl

theorem ofLine_some (keep : Bool) (n : UInt64) (offset : Nat) (s : Stmt) (cs : List Comment) :
    ofLine keep ⟨n, offset, some s, cs⟩
      = (StatementKind.ofTree s).map (⟨n, ·⟩) ++ commentsOn n cs := by
  simp [ofLine, commentsOn, Function.comp_def]

theorem ofLine_none (keep : Bool) (n : UInt64) (offset : Nat) {cs : List Comment} (h : cs ≠ []) :
    ofLine keep ⟨n, offset, none, cs⟩ = commentsOn n cs := by
  simp [ofLine, commentsOn, h, Function.comp_def]

theorem ofLine_empty (keep : Bool) (n : UInt64) (offset : Nat) :
    ofLine keep ⟨n, offset, none, []⟩ = if keep then [⟨n, .noOp⟩] else [] := by
  cases keep <;> rfl

end Statement

namespace Item

/-- What an item is read back as; `followed` says that a comment stands behind it on its line.  An
empty line with a comment on it is not empty. -/
def readback (keep followed : Bool) : Item → List Statement
  | single ⟨n, .comment text⟩ => Statement.commentsOn n [⟨0, writtenComment text followed⟩]
  | single ⟨n, .noOp⟩ => if keep ∧ followed = false then [⟨n, .noOp⟩] else []
  | i => i.statements

/-- What items are read back as. -/
def readbackAll (keep : Bool) : List Item → List Statement
  | [] => []
  | i :: rest => i.readback keep (opensWithComment i.line rest) ++ readbackAll keep rest

/-- What takes up its line is read back as it is. -/
theorem readback_of_isExecutable (keep followed : Bool) {i : Item} (h : i.isExecutable = true) :
    i.readback keep followed = i.statements := by
  cases i with
  | dims n names type => rfl
  | single s =>
    obtain ⟨n, kind⟩ := s
    cases kind with
    | noOp | comment text => cases h
    | _ => rfl

/-- The line of an item with comments behind it, if it is followed by any. -/
theorem ofLine_item (keep : Bool) {followed : Bool} {i : Item} {cs : List Comment}
    (hi : ∀ s ∈ i.statements, s.HasArity ∧ s.IsTyped) (hcs : followed = false ↔ cs = []) :
    Statement.ofLine keep ⟨i.line, 0, i.stmt?, i.written followed ++ cs⟩
      = i.readback keep followed ++ Statement.commentsOn i.line cs := by
  cases hexec : i.isExecutable with
  | true =>
    rw [readback_of_isExecutable keep followed hexec]
    cases i with
    | dims n names type =>
      rw [line, stmt?, Statement.ofLine_some]
      simp [StatementKind.ofTree, written, statements]
    | single s =>
      obtain ⟨harity, htyped⟩ := hi s List.mem_cons_self
      obtain ⟨t, ht, hof⟩ := StatementKind.ofTree_tree harity htyped hexec
      have hwritten : written followed (.single s) = [] := by
        obtain ⟨n, kind⟩ := s
        cases kind <;> first | rfl | cases hexec
      rw [stmt?, ht, Statement.ofLine_some, hof, hwritten]
      rfl
  | false =>
    cases i with
    | dims n names type => cases hexec
    | single s =>
      obtain ⟨n, kind⟩ := s
      cases kind with
      | noOp =>
        -- an empty line is kept only if no comment is written on it
        change Statement.ofLine keep ⟨n, 0, none, cs⟩ = _
        cases followed with
        | false =>
          rw [hcs.mp rfl, Statement.ofLine_empty]
          cases keep <;> rfl
        | true =>
          have hne : cs ≠ [] := fun h => Bool.noConfusion (hcs.mpr h)
          rw [Statement.ofLine_none keep n 0 hne]
          simp [readback, line]
      | comment text =>
        change Statement.ofLine keep ⟨n, 0, none, ⟨0, writtenComment text followed⟩ :: cs⟩ = _
        rw [Statement.ofLine_none keep n 0 (List.cons_ne_nil _ _)]
        exact Statement.commentsOn_append n [⟨0, writtenComment text followed⟩] cs
      | _ => cases hexec

/-- The lines of items stand for what the items are read back as. -/
theorem flatMap_ofLine_lines (keep : Bool) (items : List Item)
    (h : ∀ i ∈ items, ∀ s ∈ i.statements, s.HasArity ∧ s.IsTyped) :
    (lines items).flatMap (Statement.ofLine keep) = readbackAll keep items := by
  induction items with
  | nil => rfl
  | cons i rest ih =>
    have hlater := ih fun j hj => h j (List.mem_cons_of_mem _ hj)
    have hown := fun followed cs => @ofLine_item keep followed i cs (h i List.mem_cons_self)
    rw [lines_cons, readbackAll, ← hlater]
    cases hfollowed : opensWithComment i.line rest with
    | false =>
      have hline := hown false [] (iff_of_true rfl rfl)
      rw [List.append_nil, Statement.commentsOn_nil, List.append_nil] at hline
      rw [attach_false, List.flatMap_cons, hline]
    | true =>
      obtain ⟨⟨n, offset, statement, cs⟩, ms, hm, rfl, rfl, hne⟩ :=
        lines_of_opensWithComment hfollowed
      -- the first line of the others was made of comments alone; they move to the line of the item
      have hline := hown true cs (iff_of_false Bool.noConfusion hne)
      rw [hm, attach, if_pos rfl, List.flatMap_cons, List.flatMap_cons,
        Statement.ofLine_none keep _ _ hne, ← List.append_assoc, ← hline]

/-- The lines of items that hold a statement are those of the items that take up their line. -/
theorem takenLines_lines (items : List Item) :
    ((lines items).filter fun l => l.statement.isSome).map Line.number
      = (items.filter isExecutable).map line := by
  induction items with
  | nil => rfl
  | cons i rest ih =>
    have hstmt : i.stmt?.isSome = i.isExecutable := by
      cases i with
      | dims n names type => rfl
      | single s =>
        obtain ⟨n, kind⟩ := s
        cases kind <;> rfl
    rw [lines_cons, List.filter_cons, ← hstmt]
    cases hfollowed : opensWithComment i.line rest with
    | false =>
      rw [attach_false, List.filter_cons]
      split <;> simp [ih]
    | true =>
      -- the line that is joined to the item has no statement, so it takes up nothing
      obtain ⟨m, ms, hm, -, hnone, -⟩ := lines_of_opensWithComment hfollowed
      rw [hm, List.filter_cons] at ih
      rw [hm, attach, if_pos rfl, List.filter_cons]
      simp only [hnone, Option.isSome_none, Bool.false_eq_true, if_false] at ih
      split <;> simp [ih]

/-- The statements of the lines are those of the items. -/
theorem filterMap_statement_lines (items : List Item) :
    (lines items).filterMap Line.statement = items.filterMap stmt? := by
  induction items with
  | nil => rfl
  | cons i rest ih =>
    rw [lines_cons, List.filterMap_cons, ← ih]
    cases hfollowed : opensWithComment i.line rest with
    | false =>
      rw [attach_false, List.filterMap_cons]
    | true =>
      obtain ⟨m, ms, hm, -, hnone, -⟩ := lines_of_opensWithComment hfollowed
      rw [hm, attach, if_pos rfl, List.filterMap_cons, List.filterMap_cons_none hnone]

end Item

/-! ### Functions and programs -/

/-- Whether a statement can be written: its names are words, its texts hold no quotes, its type can
be declared, its operations have the operands they take, and its first token does not say that
something else follows. -/
structure Statement.Writable (s : Statement) : Prop where
  spellable : s.Spellable
  arity : s.HasArity
  declarable : s.Declarable
  unclaimed : s.Unclaimed

instance : DecidablePred Statement.Writable := fun s =>
  decidable_of_iff (s.Spellable ∧ s.HasArity ∧ s.Declarable ∧ s.Unclaimed)
    ⟨fun ⟨h₁, h₂, h₃, h₄⟩ => ⟨h₁, h₂, h₃, h₄⟩,
      fun h => ⟨h.spellable, h.arity, h.declarable, h.unclaimed⟩⟩

/-- Whether a function can be written. -/
structure Routine.Writable (r : Routine) : Prop where
  name : IsWord r.name
  returnType : r.returnType ≠ .unknown
  params : ∀ p ∈ r.params, IsWord p.name ∧ p.type ≠ .unknown
  statements : ∀ s ∈ r.statements, s.Writable

instance : DecidablePred Routine.Writable := fun r =>
  decidable_of_iff (IsWord r.name ∧ r.returnType ≠ .unknown ∧
    (∀ p ∈ r.params, IsWord p.name ∧ p.type ≠ .unknown) ∧ ∀ s ∈ r.statements, s.Writable)
    ⟨fun ⟨h₁, h₂, h₃, h₄⟩ => ⟨h₁, h₂, h₃, h₄⟩,
      fun h => ⟨h.name, h.returnType, h.params, h.statements⟩⟩

/-- Whether a program can be written. -/
def Program.Writable (p : Program) : Prop := ∀ r ∈ p.routines, r.Writable

instance : DecidablePred Program.Writable := fun p =>
  inferInstanceAs (Decidable (∀ r ∈ p.routines, r.Writable))

theorem Program.Writable.spellable {p : Program} (hp : p.Writable) : p.Spellable := by
  intro r hr
  exact ⟨(hp r hr).name, fun q hq => ((hp r hr).params q hq).1,
    fun s hs => ((hp r hr).statements s hs).spellable⟩

/-- The statements of the tree of a function are those of its items. -/
theorem Routine.mem_lines_tree {r : Routine} {t : Stmt} :
    (∃ l ∈ r.tree.lines, l.statement = some t) ↔
      ∃ i ∈ Item.ofStatements r.statements, i.stmt? = some t := by
  rw [← List.mem_filterMap, ← List.mem_filterMap, tree, Item.filterMap_statement_lines]

/-- The tree of a function is regular but for the first tokens of its bare expressions. -/
theorem Routine.shaped_tree {r : Routine} (htype : r.returnType ≠ .unknown)
    (hparams : ∀ p ∈ r.params, p.type ≠ .unknown)
    (hstatements : ∀ s ∈ r.statements, s.HasArity ∧ s.Declarable) : r.tree.Shaped := by
  refine ⟨?_, htype, ?_⟩
  · intro q hq
    obtain ⟨p, hp, rfl⟩ := List.mem_map.mp hq
    exact hparams p hp
  · intro l hl t ht
    obtain ⟨i, hi, hstmt⟩ := mem_lines_tree.mp ⟨l, hl, ht⟩
    have hmem : ∀ s ∈ i.statements, s.HasArity ∧ s.Declarable :=
      fun s hs => hstatements s (Item.mem_of_mem_statements hi hs)
    cases i with
    | dims n names type =>
      cases hstmt
      -- an item is made of at least one declaration, so its type can be declared
      have hne : names ≠ [] := by
        have h := Item.statements_ne_nil _ hi
        simpa [Item.statements] using h
      obtain ⟨x, hx⟩ := List.exists_mem_of_ne_nil names hne
      have hdeclarable := (hmem ⟨n, .dim x type⟩ (List.mem_map.mpr ⟨x, hx, rfl⟩)).2
      refine ⟨?_, ?_⟩
      · rintro e ⟨⟩
      · rintro _ _ ⟨⟩
        exact ⟨hne, hdeclarable type rfl⟩
    | single s =>
      obtain ⟨harity, hdeclarable⟩ := hmem s List.mem_cons_self
      exact StatementKind.shaped_tree harity hdeclarable t hstmt

/-- The tree of a function has no claims exactly if no statement is printed with one. -/
theorem Routine.claim?_tree {r : Routine} (hstatements : ∀ s ∈ r.statements, s.HasArity) :
    (∀ l ∈ r.tree.lines, ∀ t ∈ l.statement, t.claim? = none) ↔
      ∀ s ∈ r.statements, s.Unclaimed := by
  constructor
  · intro h s hs
    rw [StatementKind.claim?_tree (hstatements s hs)]
    intro t ht
    obtain ⟨i, hi, hsi⟩ := List.mem_flatMap.mp (Item.flatMap_statements r.statements ▸ hs)
    -- the tree of an item is that of its only statement, or a declaration, which claims nothing
    have hstmt : t.claim? = none ∨ i.stmt? = some t := by
      cases i with
      | dims n names type =>
        obtain ⟨x, -, rfl⟩ := List.mem_map.mp hsi
        cases ht
        exact .inl rfl
      | single s' =>
        obtain rfl := List.mem_singleton.mp hsi
        exact .inr ht
    rcases hstmt with hnone | hstmt
    · exact hnone
    · obtain ⟨l, hl, hlt⟩ := mem_lines_tree.mpr ⟨i, hi, hstmt⟩
      exact h l hl t hlt
  · intro h l hl t ht
    obtain ⟨i, hi, hstmt⟩ := mem_lines_tree.mp ⟨l, hl, ht⟩
    cases i with
    | dims n names type =>
      cases hstmt
      rfl
    | single s =>
      have hs := Item.mem_of_mem_statements hi List.mem_cons_self
      exact (StatementKind.claim?_tree (hstatements s hs)).mp (h s hs) t hstmt

/-- The tree of a program that can be written is regular. -/
theorem Program.Writable.regular_tree {p : Program} (hp : p.Writable) : p.tree.Regular := by
  intro t ht
  obtain ⟨r, hr, rfl⟩ := List.mem_map.mp ht
  have hwritable := hp r hr
  have hshaped : r.tree.Shaped := Routine.shaped_tree hwritable.returnType
    (fun q hq => (hwritable.params q hq).2)
    fun s hs => ⟨(hwritable.statements s hs).arity, (hwritable.statements s hs).declarable⟩
  have hclaims := (Routine.claim?_tree fun s hs => (hwritable.statements s hs).arity).mpr
    fun s hs => (hwritable.statements s hs).unclaimed
  exact ⟨hshaped.params, hshaped.returnType,
    fun l hl s hs => (hshaped.lines l hl s hs).regular (hclaims l hl s hs)⟩

/-- What a function is read back as. -/
def Routine.readback (keep : Bool) (r : Routine) : Routine :=
  { r with
    statements := Item.readbackAll keep (Item.ofStatements r.statements)
    comments := cleanComments (r.comments.map fun text => ⟨0, writtenComment text false⟩) }

/-- What a program is read back as. -/
def Program.readback (keep : Bool) (p : Program) : Program where
  headers := cleanComments (p.headers.map fun text => ⟨0, writtenComment text false⟩)
  routines := p.routines.map (Routine.readback keep)

/-- The tree of a function stands for what the function is read back as. -/
theorem Routine.ofTree_tree (keep : Bool) {r : Routine}
    (h : ∀ s ∈ r.statements, s.HasArity ∧ s.IsTyped) : ofTree keep r.tree = r.readback keep := by
  have hlines := Item.flatMap_ofLine_lines keep (Item.ofStatements r.statements)
    fun i hi s hs => h s (Item.mem_of_mem_statements hi hs)
  have hparams : r.tree.params.map (fun p => (⟨p.name, p.type⟩ : Param)) = r.params := by
    rw [tree, List.map_map]
    exact List.map_id _
  have hmarked : r.tree.params.flatMap markedComments = [] := by
    rw [tree, List.flatMap_map]
    exact List.flatMap_eq_nil_iff.mpr fun p _ => rfl
  rw [ofTree, hparams, hmarked, List.append_nil]
  simp only [tree, hlines, readback]

/-- **The tree of a program stands for what the program is read back as.** -/
theorem Program.ofTree_tree (keep : Bool) {p : Program}
    (h : ∀ r ∈ p.routines, ∀ s ∈ r.statements, s.HasArity ∧ s.IsTyped) :
    ofTree keep p.tree = p.readback keep := by
  rw [ofTree, tree, readback, List.map_map]
  congr 1
  exact List.map_congr_left fun r hr => Routine.ofTree_tree keep (h r hr)

/-! ### What is read back as it was -/

namespace Item

/-- A comment with a text that a comment can have is read back as it is. -/
theorem readback_of_isPlain (keep followed : Bool) {i : Item}
    (hplain : ∀ s ∈ i.statements, s.IsPlain) (hnoOp : ∀ s ∈ i.statements, s.kind ≠ .noOp) :
    i.readback keep followed = i.statements := by
  cases hexec : i.isExecutable with
  | true => exact readback_of_isExecutable keep followed hexec
  | false =>
    cases i with
    | dims n names type => cases hexec
    | single s =>
      have hs := hplain s List.mem_cons_self
      have hne := hnoOp s List.mem_cons_self
      obtain ⟨n, kind⟩ := s
      cases kind with
      | noOp => exact absurd rfl hne
      | comment text =>
        have hclean := @cleanComments_written [text] (by simpa using hs text rfl) followed
        rw [List.map_singleton] at hclean
        rw [readback, Statement.commentsOn, hclean]
        rfl
      | _ => cases hexec

/-- Items without empty lines are read back as they are. -/
theorem readbackAll_eq_self (keep : Bool) {items : List Item}
    (hplain : ∀ i ∈ items, ∀ s ∈ i.statements, s.IsPlain)
    (hnoOp : ∀ i ∈ items, ∀ s ∈ i.statements, s.kind ≠ .noOp) :
    readbackAll keep items = items.flatMap statements := by
  induction items with
  | nil => rfl
  | cons i rest ih =>
    rw [readbackAll, List.flatMap_cons,
      readback_of_isPlain keep _ (hplain i List.mem_cons_self) (hnoOp i List.mem_cons_self),
      ih (fun j hj => hplain j (List.mem_cons_of_mem _ hj))
        fun j hj => hnoOp j (List.mem_cons_of_mem _ hj)]

end Item

/-- The lines that the tree of a function takes up are those of the function. -/
theorem Routine.takenLines_tree {r : Routine} (h : Item.Unsplit r.statements) :
    r.tree.takenLines = r.takenLines := by
  rw [ParseTree.Routine.takenLines, tree, Item.takenLines_lines, Item.filter_ofStatements h]
  rfl

/-- The check of the lines of the tree of a program is that of the program. -/
theorem Program.checkLines_tree {p : Program} (h : ∀ r ∈ p.routines, Item.Unsplit r.statements) :
    p.tree.checkLines = p.checkLines := by
  rw [ParseTree.checkLines, checkLines, tree]
  refine forM_map_congr fun r hr => ?_
  rw [Routine.takenLines_tree (h r hr)]
  rfl

end ContractBasic
