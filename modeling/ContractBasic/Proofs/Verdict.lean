/-
What reading makes of the code of a text.

The tree of a text without its comments is found in the tokens of its code, the code of a program is
the program of its tree without comments, and the checks look at code only.  So what the reader says
of a text, and the code it lets pass, hang on the tokens of the code.

* `Error.unplaced` — an error without its place
* `Program.code_ofTree` — the code of the program of a tree is what the tree stands for without its
  comments
* `Program.read_eq_of_codeTokens_eq` — comments and the keeping of empty lines change neither the
  verdict on a text nor the code of its program
-/
import ContractBasic.Proofs.Program.Code
import ContractBasic.Proofs.Program.Lines

namespace ContractBasic

open Grammar

/-- An error that says what is wrong and not where. -/
def Error.unplaced : Error → Error
  | .grammar _ complaint => .grammar .start complaint
  | e => e

/-! ### Trees without comments -/

/-- What is left of the tokens of a text without comments and offsets are the tokens of its code. -/
theorem Forgetting.filterMap_remarks (ts : List (Placed Token)) :
    ts.filterMap remarks.token? = (codeTokens ts).map fun t => ⟨0, t⟩ := by
  induction ts with
  | nil => rfl
  | cons t ts ih =>
    obtain ⟨offset, item⟩ := t
    cases item with
    | comment raw => exact ih
    | _ => exact congrArg (List.cons _) ih

@[simp] theorem Forgetting.comments_remarks (cs : List Comment) : remarks.comments cs = [] :=
  List.filterMap_eq_nil_iff.mpr fun _ _ => rfl

/-- What is found in a text, but for comments and offsets, is found in the tokens of its code. -/
theorem ParseTree.ofSource_forget {source : String} (h : (lex source.toList).fault = none) :
    ((ofSource source).map (forget .remarks)).mapError Error.unplaced = (do
      let final ← State.start.run ((codeTokens (lex source.toList).tokens).map fun t => ⟨0, t⟩)
      final.finish 0).mapError (Error.ofFault []) := by
  have hparse := parse_forget .remarks h
  rw [Forgetting.filterMap_remarks] at hparse
  refine .trans ?_ (congrArg (Except.mapError (Error.ofFault [])) hparse)
  rw [ofSource]
  cases parse source.toList <;> rfl

namespace ParseTree

/-- A line without comments holds what it does and nothing else. -/
theorem Line.ofLine_forget (l : Line) :
    Statement.ofLine false (l.forget .remarks) = l.held := by
  -- what holds a statement is held by the line either way, and here there is nothing else
  have hall : (Statement.ofLine false (l.forget .remarks)).filter (fun s => s.kind.isExecutable)
      = Statement.ofLine false (l.forget .remarks) := by
    rw [List.filter_eq_self]
    intro s hs
    obtain ⟨n, offset, statement, comments⟩ := l
    cases statement with
    | none => simp [Statement.ofLine, forget, cleanComments] at hs
    | some t =>
      obtain ⟨k, hk, rfl⟩ : ∃ k ∈ StatementKind.ofTree t, ⟨n, k⟩ = s := by
        simpa [Statement.ofLine, forget, cleanComments] using hs
      exact Stmt.isExecutable_ofTree k hk
  rw [← hall, filter_ofLine]
  rfl

end ParseTree

namespace Program

/-- The code of the program of a tree is what the tree stands for without its comments. -/
theorem code_ofTree (keep : Bool) (t : ParseTree) :
    (ofTree keep t).code = ofTree false (t.forget .remarks) := by
  have hroutine : ∀ r : ParseTree.Routine,
      (Routine.ofTree keep r).code = Routine.ofTree false (r.forget .remarks) := by
    intro r
    have hstatements : ((r.lines.map (ParseTree.Line.forget .remarks)).flatMap
        (Statement.ofLine false)) = r.lines.flatMap ParseTree.Line.held := by
      rw [List.flatMap_map]
      exact List.flatMap_congr fun l _ => ParseTree.Line.ofLine_forget l
    simp [Routine.code, Routine.ofTree, ParseTree.Routine.forget, ParseTree.Line.filter_statements,
      hstatements, ParseTree.Param.forget, markedComments, cleanComments, Function.comp_def]
  rw [code, ofTree, ofTree, ParseTree.forget, List.map_map, List.map_map]
  exact congrArg₂ mk (by simp [cleanComments]) (List.map_congr_left fun r _ => hroutine r)

/-! ### Verdicts -/

/-- What the checks make of a tree. -/
def judge (targets : Bool) (t : ParseTree) : Except Error Program := do
  t.checkLines
  (ofTree false t).checked targets

/-- The code of what is read is judged from the tree without comments. -/
theorem map_code_read (options : ParseOptions) (source : String) :
    (read options source).map code = (do
      let t ← (ParseTree.ofSource source).map (ParseTree.forget .remarks)
      judge options.checkTargets t) := by
  rw [read_eq]
  cases ParseTree.ofSource source with
  | error e => rfl
  | ok t =>
    -- each check gives the same for the tree or the program as for what is left of it
    change (do t.checkLines; (ofTree options.keepEmptyLines t).checked options.checkTargets).map code
      = judge options.checkTargets (t.forget .remarks)
    rw [judge, ParseTree.checkLines_forget, ← code_ofTree options.keepEmptyLines, checked_code]
    cases t.checkLines <;> rfl

/-- **Comments and the keeping of empty lines change neither the verdict on a text nor the code of its
program.**  Texts with the same tokens but for comments are both refused, for the same reason, or both
read as programs with the same code. -/
theorem read_eq_of_codeTokens_eq {source source' : String}
    (h : (lex source.toList).fault = none) (h' : (lex source'.toList).fault = none)
    (hcode : codeTokens (lex source.toList).tokens = codeTokens (lex source'.toList).tokens)
    (keep keep' targets : Bool) :
    ((read ⟨keep, targets⟩ source).map code).mapError Error.unplaced
      = ((read ⟨keep', targets⟩ source').map code).mapError Error.unplaced := by
  -- the two trees agree without comments and offsets, and so do the faults in place of a tree
  have htree := ParseTree.ofSource_forget h
  rw [hcode, ← ParseTree.ofSource_forget h'] at htree
  have hbind : ∀ x : Except Error ParseTree, (do let t ← x; judge targets t).mapError Error.unplaced
      = (do let t ← x.mapError Error.unplaced; (judge targets t).mapError Error.unplaced) := by
    intro x
    cases x <;> rfl
  rw [map_code_read, map_code_read, hbind, hbind, htree]

/-- A text with an empty line and without comments. -/
def bareText : String := "Function F(a Uint64) Uint64\n1\n2 DIM b, c AS Uint64\n3 GOTO 2\nEnd Function"

/-- The text with comments in the first line, on the empty line, inside a declaration and behind the
function. -/
def remarkedText : String :=
  "//\nFunction F/**/(a /*x*/ Uint64) Uint64\n1 //x\n2 DIM b,/*y*/c AS Uint64 3 GOTO 2 " ++
    "End /*4*/ Function//"

theorem read_eq_of_codeTokens_eq_remarkedText :
    ((lex bareText.toList).fault = none ∧ (lex remarkedText.toList).fault = none ∧
      codeTokens (lex bareText.toList).tokens = codeTokens (lex remarkedText.toList).tokens) ∧
    ((read ⟨true, true⟩ bareText).map code).mapError Error.unplaced
      = ((read ⟨false, true⟩ remarkedText).map code).mapError Error.unplaced := by
  have hlex : (lex bareText.toList).fault = none ∧ (lex remarkedText.toList).fault = none ∧
      codeTokens (lex bareText.toList).tokens
        = codeTokens (lex remarkedText.toList).tokens := by decide +kernel
  exact ⟨hlex, read_eq_of_codeTokens_eq hlex.1 hlex.2.1 hlex.2.2 true false true⟩

end Program

end ContractBasic
