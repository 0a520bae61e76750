/-
Programs with any comments and empty lines, read back from their own text.

No comment can pass for code or hide it: what takes up its line is read back as it was, whatever the
comments say and wherever they stand.  An empty line is read back if it is asked for, unless the
comment behind it is written on it: a line with a comment is not empty.

* `Program.code_readback` — what a program is read back as has the code of the program
* `Program.exists_evaluate_generate` — the text of a program with any comments has its code
* `Program.read_generate_keeping_iff` — a program with empty lines is read back as it is exactly if
  none is filled by a comment and nothing splits a declaration
* `Program.not_read_generate_filledLine` — one that is not
-/
import ContractBasic.Proofs.RoundTrip

namespace ContractBasic

/-! ### Code -/

namespace Item

/-- What takes up its line is all that is left of an item and of what it is read back as. -/
theorem filter_readback (keep followed : Bool) (i : Item) :
    (i.readback keep followed).filter (fun s => s.kind.isExecutable)
      = i.statements.filter fun s => s.kind.isExecutable := by
  cases hexec : i.isExecutable with
  | true => rw [readback_of_isExecutable keep followed hexec]
  | false =>
    cases i with
    | dims n names type => cases hexec
    | single s =>
      obtain ⟨n, kind⟩ := s
      cases kind with
      | noOp =>
        rw [readback]
        split <;> rfl
      | comment text =>
        rw [readback, statements, List.filter_cons_of_neg (by simp [StatementKind.isExecutable]),
          List.filter_nil, List.filter_eq_nil_iff]
        rintro s hs
        obtain ⟨clean, -, rfl⟩ := List.mem_map.mp hs
        simp [StatementKind.isExecutable]
      | _ => cases hexec

theorem filter_readbackAll (keep : Bool) (items : List Item) :
    (readbackAll keep items).filter (fun s => s.kind.isExecutable)
      = (items.flatMap statements).filter fun s => s.kind.isExecutable := by
  induction items with
  | nil => rfl
  | cons i rest ih =>
    rw [readbackAll, List.flatMap_cons, List.filter_append, List.filter_append, filter_readback, ih]

end Item

/-- What a program is read back as has the code of the program. -/
theorem Program.code_readback (keep : Bool) (p : Program) : (p.readback keep).code = p.code := by
  have hroutine : ∀ r : Routine, (r.readback keep).code = r.code := by
    intro r
    rw [Routine.code, Routine.readback, Item.filter_readbackAll, Item.flatMap_statements]
    rfl
  exact code_mk_map hroutine _ p

namespace Program

/-- **Comments do not pass for code and hide none.**  The text of a program with comments of any kind
is evaluated, in either layout, to a program with the same code. -/
theorem exists_evaluate_generate {p : Program} (hp : p.Writable)
    (htyped : ∀ r ∈ p.routines, ∀ s ∈ r.statements, s.IsTyped) (options : ParseOptions)
    (compact : Bool) :
    ∃ q, evaluate options (p.generate ⟨false, true, compact⟩).code = .ok q ∧ q.code = p.code :=
  ⟨p.readback options.keepEmptyLines, hp.evaluate_source htyped options _, code_readback _ p⟩

/-- A program whose comments hold what code is written with, and one that is empty; two of them stand
between declarations of one line, and lines go down and repeat. -/
def disguised : Program where
  headers := ["", "End Function\nFunction B() String */ 1 RETURN \"b\" /*"]
  routines := [
    ⟨"A", .uint64, [⟨"x", .uint64⟩],
      [⟨30, .dim "y" .uint64⟩, ⟨30, .comment "*/ 20 RETURN 9 /*"⟩, ⟨30, .comment "*/\n20 RETURN 9"⟩,
        ⟨30, .dim "z" .uint64⟩, ⟨10, .noOp⟩, ⟨10, .comment ""⟩, ⟨10, .noOp⟩,
        ⟨10, .comment " \" // /* "⟩, ⟨10, .assign "y" (.name "x")⟩, ⟨10, .result (.name "y")⟩,
        ⟨10, .comment "End Function"⟩],
      ["", "*/ Function B() String\n// End Function"]⟩]

theorem exists_evaluate_generate_disguised : disguised.Writable ∧
    (∀ r ∈ disguised.routines, ∀ s ∈ r.statements, s.IsTyped) ∧
    ∃ q, evaluate ⟨true, true⟩ (disguised.generate ⟨false, true, true⟩).code = .ok q ∧
      q.code = disguised.code := by
  have hwritable : disguised.Writable := by decide +kernel
  have htyped : ∀ r ∈ disguised.routines, ∀ s ∈ r.statements, s.IsTyped := by decide +kernel
  exact ⟨hwritable, htyped, exists_evaluate_generate hwritable htyped ⟨true, true⟩ true⟩

end Program

/-! ### Empty lines -/

namespace Item

/-- Whether an item is an empty line. -/
def isEmptyLine : Item → Bool
  | single ⟨_, .noOp⟩ => true
  | _ => false

/-- Where empty lines are kept, an item is read back as it is, unless it is an empty line that a
comment is written on. -/
theorem readback_keeping (followed : Bool) {i : Item} (hplain : ∀ s ∈ i.statements, s.IsPlain) :
    i.readback true followed = if i.isEmptyLine && followed then [] else i.statements := by
  cases hempty : i.isEmptyLine with
  | true =>
    cases i with
    | dims n names type => cases hempty
    | single s =>
      obtain ⟨n, kind⟩ := s
      cases kind with
      | noOp => cases followed <;> rfl
      | _ => cases hempty
  | false =>
    -- what is no empty line is read back as it is, whether empty lines are kept or not
    refine readback_of_isPlain true followed hplain fun s hs => ?_
    cases i with
    | dims n names type =>
      obtain ⟨name, -, rfl⟩ := List.mem_map.mp hs
      nofun
    | single s' =>
      obtain rfl := List.mem_singleton.mp hs
      obtain ⟨n, kind⟩ := s
      rintro rfl
      cases hempty

/-- A comment of a line stands first among items exactly if it does among their statements. -/
theorem opensWithComment_iff {n : UInt64} {items : List Item}
    (hne : ∀ i ∈ items, i.statements ≠ []) :
    opensWithComment n items = true ↔
      ∃ s ∈ (items.flatMap statements).head?, s.kind.isComment = true ∧ n = s.line := by
  cases items with
  | nil => simp [opensWithComment]
  | cons i rest =>
    -- no item is without statements, so the first statement is one of the first item
    have hopens : opensWithComment n (i :: rest) = i.isCommentOn n := rfl
    rw [hopens, List.flatMap_cons, List.head?_append_of_ne_nil _ (hne i List.mem_cons_self)]
    constructor
    · intro h
      obtain ⟨text, rfl⟩ := eq_comment_of_isCommentOn h
      exact ⟨_, rfl, rfl, rfl⟩
    · rintro ⟨s, hs, hcomment, rfl⟩
      cases i with
      | dims m names type =>
        obtain ⟨name, -, rfl⟩ := List.mem_map.mp (List.mem_of_mem_head? hs)
        cases hcomment
      | single s' =>
        cases hs
        obtain ⟨m, kind⟩ := s
        cases kind with
        | comment text => simp [isCommentOn]
        | _ => cases hcomment

/-- Statements behind an item are unfilled with it exactly if they are without it, and the item is no
empty line that the first of them fills. -/
theorem unfilled_append (i : Item) (ss : List Statement) :
    Unfilled (i.statements ++ ss) ↔ (i.isEmptyLine = true → ∀ s ∈ ss.head?,
      s.kind.isComment = true → i.line ≠ s.line) ∧ Unfilled ss := by
  have hown : Unfilled i.statements := by
    cases i with
    | dims n names type =>
      refine List.Pairwise.isChain (List.pairwise_of_forall_mem_list fun a ha b _ hkind => ?_)
      obtain ⟨name, -, rfl⟩ := List.mem_map.mp ha
      cases hkind
    | single s => exact List.isChain_singleton s
  -- only the last statement of the item meets what follows, and a declaration is no empty line
  have hlast : (∀ a ∈ i.statements.getLast?, ∀ b ∈ ss.head?,
      a.kind = .noOp → b.kind.isComment = true → a.line ≠ b.line) ↔
      (i.isEmptyLine = true → ∀ s ∈ ss.head?, s.kind.isComment = true → i.line ≠ s.line) := by
    cases i with
    | dims n names type =>
      refine iff_of_true (fun a ha b _ hkind => ?_) fun hempty => Bool.noConfusion hempty
      obtain ⟨name, -, rfl⟩ := List.mem_map.mp (List.mem_of_mem_getLast? ha)
      cases hkind
    | single s =>
      obtain ⟨n, kind⟩ := s
      cases kind with
      | noOp => simp [statements, isEmptyLine, line]
      | _ => simp [statements, isEmptyLine]
  rw [Unfilled, List.isChain_append, hlast]
  constructor
  · rintro ⟨-, h, hi⟩
    exact ⟨hi, h⟩
  · rintro ⟨hi, h⟩
    exact ⟨hown, h, hi⟩

/-- Where empty lines are kept, no more is read back than was written. -/
theorem length_readbackAll_le {items : List Item}
    (hplain : ∀ i ∈ items, ∀ s ∈ i.statements, s.IsPlain) :
    (readbackAll true items).length ≤ (items.flatMap statements).length := by
  induction items with
  | nil => exact Nat.le_refl _
  | cons i rest ih =>
    have hrest := ih fun j hj => hplain j (List.mem_cons_of_mem _ hj)
    rw [readbackAll, List.flatMap_cons, readback_keeping _ (hplain i List.mem_cons_self),
      List.length_append, List.length_append]
    split
    · exact Nat.le_trans (by simpa using hrest) (Nat.le_add_left _ _)
    · exact Nat.add_le_add_left hrest _

/-- Where empty lines are kept, items are read back as they are exactly if no comment fills one. -/
theorem readbackAll_keeping_iff {items : List Item} (hne : ∀ i ∈ items, i.statements ≠ [])
    (hplain : ∀ i ∈ items, ∀ s ∈ i.statements, s.IsPlain) :
    readbackAll true items = items.flatMap statements ↔ Unfilled (items.flatMap statements) := by
  -- item by item from the front: an item is lost only to the one behind it
  induction items with
  | nil => exact iff_of_true rfl List.isChain_nil
  | cons i rest ih =>
    have hneRest : ∀ j ∈ rest, j.statements ≠ [] := fun j hj => hne j (List.mem_cons_of_mem _ hj)
    have hplainRest : ∀ j ∈ rest, ∀ s ∈ j.statements, s.IsPlain :=
      fun j hj => hplain j (List.mem_cons_of_mem _ hj)
    have hopens := opensWithComment_iff (n := i.line) hneRest
    rw [readbackAll, List.flatMap_cons, readback_keeping _ (hplain i List.mem_cons_self),
      unfilled_append]
    by_cases hfilled : i.isEmptyLine = true ∧ opensWithComment i.line rest = true
    · -- a statement is missing, and nothing makes up for it
      rw [hfilled.1, hfilled.2, Bool.and_self, if_pos rfl, List.nil_append]
      refine iff_of_false ?_ ?_
      · intro h
        have hlength := length_readbackAll_le hplainRest
        have hpos := List.length_pos_iff.mpr (hne i List.mem_cons_self)
        rw [h, List.length_append] at hlength
        omega
      · rintro ⟨hunfilled, -⟩
        obtain ⟨s, hs, hcomment, hline⟩ := hopens.mp hfilled.2
        exact hunfilled rfl s hs hcomment hline
    · have hkept : (i.isEmptyLine && opensWithComment i.line rest) = false := by simpa using hfilled
      rw [hkept, if_neg Bool.false_ne_true, List.append_cancel_left_eq, ih hneRest hplainRest]
      refine (and_iff_right ?_).symm
      intro hempty s hs hcomment hline
      exact hfilled ⟨hempty, hopens.mpr ⟨s, hs, hcomment, hline⟩⟩

end Item

namespace Program

/-- Whether source text can express a program but for its empty lines and for comments in the wrong
places. -/
structure Expressible (p : Program) : Prop where
  writable : p.Writable
  typed : ∀ r ∈ p.routines, ∀ s ∈ r.statements, s.IsTyped
  texts : ∀ text ∈ p.commentTexts, IsCommentText text
  lines : p.checkLines = .ok ()
  names : p.checkNames (.ofProgram p) = .ok ()

instance : DecidablePred Expressible := fun p =>
  decidable_of_iff (p.Writable ∧ (∀ r ∈ p.routines, ∀ s ∈ r.statements, s.IsTyped) ∧
    (∀ text ∈ p.commentTexts, IsCommentText text) ∧ p.checkLines = .ok () ∧
    p.checkNames (.ofProgram p) = .ok ())
    ⟨fun ⟨h₁, h₂, h₃, h₄, h₅⟩ => ⟨h₁, h₂, h₃, h₄, h₅⟩,
      fun h => ⟨h.writable, h.typed, h.texts, h.lines, h.names⟩⟩

/-- Where empty lines are kept, a program is what it is read back as exactly if no comment fills one. -/
theorem WellFormed.readback_keeping_iff {p : Program} (hp : p.WellFormed) :
    p.readback true = p ↔ ∀ r ∈ p.routines, Item.Unfilled r.statements := by
  rw [hp.readback_eq_self_iff]
  refine forall₂_congr fun r hr => ?_
  have h := Item.readbackAll_keeping_iff (@Item.statements_ne_nil r.statements)
    fun i hi s hs => ((hp.routines r hr).statements s (Item.mem_of_mem_statements hi hs)).plain
  rwa [Item.flatMap_statements] at h

/-- **A program with empty lines is read back as it is exactly if no comment is written on one of them
and nothing splits a declaration**, in either layout. -/
theorem read_generate_keeping_iff {p : Program} (hp : p.Expressible) (compact : Bool) :
    read ⟨true, false⟩ (p.generate ⟨false, true, compact⟩).code = .ok p ↔
      ∀ r ∈ p.routines, Item.Unsplit r.statements ∧ Item.Unfilled r.statements := by
  have hwell := hp.writable.wellFormed hp.typed hp.texts
  change read _ (p.source _ true) = _ ↔ _
  rw [hp.writable.read_source hp.typed, bind_eq_ok, checked_eq_ok, forall₂_and,
    ← hwell.readback_keeping_iff]
  constructor
  · rintro ⟨htree, hself, -⟩
    refine ⟨?_, hself⟩
    intro r hr
    -- the program is that of its own tree, and trees are checked for split declarations
    rw [← hself, ← hwell.ofTree_tree] at hr
    obtain ⟨t, ht, rfl⟩ := List.mem_map.mp hr
    exact Routine.unsplit_ofTree true (ParseTree.checkLines_eq_ok.mp htree t ht)
  · rintro ⟨hunsplit, hself⟩
    rw [checkLines_tree hunsplit, hself]
    exact ⟨hp.lines, rfl, hp.lines, hp.names, nofun⟩

/-- A program with empty lines before, between and behind statements and comments of their lines. -/
def paused : Program where
  headers := ["no more"]
  routines := [
    ⟨"Wait", .uint64, [],
      [⟨10, .noOp⟩, ⟨10, .noOp⟩, ⟨10, .dim "a" .string⟩, ⟨10, .dim "b" .string⟩, ⟨10, .noOp⟩,
        ⟨20, .comment "first"⟩, ⟨20, .comment "second"⟩, ⟨20, .noOp⟩, ⟨20, .assign "a" (.name "b")⟩,
        ⟨20, .comment "third"⟩, ⟨5, .noOp⟩, ⟨30, .result (.value (.uint64 0))⟩, ⟨40, .noOp⟩],
      ["over\ntwo lines"]⟩]

theorem read_generate_keeping_paused : paused.Expressible ∧
    read ⟨true, false⟩ (paused.generate ⟨false, true, false⟩).code = .ok paused := by
  have hp : paused.Expressible := by decide +kernel
  exact ⟨hp, (read_generate_keeping_iff hp false).mpr (by decide +kernel)⟩

/-- A program with a comment behind an empty line and on it. -/
def filledLine : Program where
  headers := []
  routines := [⟨"F", .uint64, [], [⟨10, .noOp⟩, ⟨10, .comment "c"⟩], []⟩]

/-- A program with an empty line between two declarations of its number. -/
def brokenLine : Program where
  headers := []
  routines := [⟨"F", .uint64, [], [⟨10, .dim "a" .uint64⟩, ⟨10, .noOp⟩, ⟨10, .dim "b" .uint64⟩], []⟩]

/-- The comment is written on the empty line, and the declarations on a line each: neither program is
read back as it was. -/
theorem not_read_generate_filledLine :
    (filledLine.Expressible ∧ (∀ r ∈ filledLine.routines, Item.Unsplit r.statements) ∧
      ∀ compact, read ⟨true, false⟩ (filledLine.generate ⟨false, true, compact⟩).code
        ≠ .ok filledLine) ∧
    (brokenLine.Expressible ∧
      (∀ r ∈ brokenLine.routines, ∀ s ∈ r.statements, s.kind.isComment = false) ∧
      ∀ compact, read ⟨true, false⟩ (brokenLine.generate ⟨false, true, compact⟩).code
        ≠ .ok brokenLine) := by
  decide +kernel

end Program

end ContractBasic
