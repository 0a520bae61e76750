/-
What every text is evaluated to.

The lexer, the grammar, the typing of operations and the cleaning of comments each leave a mark on a
program, whatever the text and the options.

* `Operator.resultType_eq_unknown_iff` — when the type of an operation stays unknown
* `Program.evaluate_invariant` — the marks together: the program is well formed, types stay unknown
  only where no operand decides, comments are written so that they are found again, and empty lines
  are there only if they were asked for
-/
import ContractBasic.Proofs.Reprint

namespace ContractBasic

/-! ### Unknown types -/

/-- What an operand reveals is a type. -/
theorem Expression.hint_ne_unknown (e : Expression) : e.hint ≠ some .unknown := by
  cases e with
  | value l => cases l <;> simp [hint, Literal.type]
  | name n => simp [hint]
  | call f args => simp [hint]
  | operation o operands type =>
    -- an operation of unknown type reveals nothing, and a comparison reveals a number
    cases type <;> rcases o with c | a | b <;> simp [hint]

/-- The operators whose operands decide the type. -/
def Operator.decided : List Operator := [.comparison .eq, .comparison .ne, .arithmetic .add]

/-- The type of an operation stays unknown exactly if its operands decide it and none of them reveals
anything. -/
theorem Operator.resultType_eq_unknown_iff {o : Operator} {left right : Option ValueType}
    (hleft : left ≠ some .unknown) (hright : right ≠ some .unknown) :
    o.resultType left right = .unknown ↔ o ∈ decided ∧ left = none ∧ right = none := by
  -- what the operands reveal is a type, so it is unknown only if nothing is revealed
  have hguess : (right.or left).getD .unknown = .unknown ↔ left = none ∧ right = none := by
    cases right with
    | none =>
      rw [Option.none_or]
      cases left with
      | none => simp
      | some t =>
        have ht : t ≠ .unknown := fun h => hleft (congrArg some h)
        simpa using ht
    | some t =>
      have ht : t ≠ .unknown := fun h => hright (congrArg some h)
      simpa using ht
  by_cases ho : o ∈ decided
  · rw [and_iff_right ho, ← hguess]
    rcases List.mem_cons.mp ho with rfl | ho
    · rfl
    · rcases List.mem_cons.mp ho with rfl | ho
      · rfl
      · obtain rfl := List.mem_singleton.mp ho
        rfl
  · -- all other operators give numbers
    have hnumber : o.resultType left right = .uint64 := by
      rcases o with c | a | b
      · cases c <;> first | rfl | exact absurd (by decide) ho
      · cases a <;> first | rfl | exact absurd (by decide) ho
      · rfl
    rw [hnumber]
    exact iff_of_false nofun fun h => ho h.1

/-- The type of a well-formed operation stays unknown exactly if its operands decide it and none of
them reveals anything. -/
theorem Expression.IsTyped.eq_unknown_iff {o : Operator} {operands : List Expression}
    {type : ValueType} (htyped : (operation o operands type).IsTyped)
    (harity : (operation o operands type).HasArity) :
    type = .unknown ↔ o ∈ Operator.decided ∧ ∀ e ∈ operands, e.hint = none := by
  obtain ⟨rfl, e, rfl⟩ | ⟨-, l, r, rfl⟩ := harity.cases
  · have htype : type = Operator.resultType (.bitwise .not) none e.hint := htyped
    have hnone : (none : Option ValueType) ≠ some .unknown := nofun
    rw [htype, Operator.resultType_eq_unknown_iff hnone e.hint_ne_unknown]
    simp
  · have htype : type = o.resultType l.hint r.hint := htyped
    rw [htype, Operator.resultType_eq_unknown_iff l.hint_ne_unknown r.hint_ne_unknown]
    simp

/-! ### Whole programs -/

namespace Program

/-- The nodes of a well-formed program are those of its statements. -/
theorem WellFormed.node {p : Program} (hp : p.WellFormed) {f : String} {n : Expression}
    (hn : (f, n) ∈ p.nodes) : n.Spellable ∧ n.HasArity ∧ n.IsTyped := by
  obtain ⟨r, hr, -, hn⟩ := mem_nodes.mp hn
  obtain ⟨s, hs, e, he, hn⟩ := Routine.mem_nodes.mp hn
  exact ((hp.routines r hr).statements s hs).expression e he n hn

/-- What a text is evaluated to is the program of its tree. -/
theorem evaluate_eq_ok {options : ParseOptions} {source : String} {p : Program} :
    evaluate options source = .ok p ↔
      ∃ t, ParseTree.ofSource source = .ok t ∧ ofTree options.keepEmptyLines t = p := by
  rw [evaluate]
  cases ParseTree.ofSource source with
  | error e => simp [bind, Except.bind]
  | ok t => simp [bind, Except.bind, pure, Except.pure]

/-- **What every text is evaluated to**, under all options.  The program is well formed: names are
words, types can be declared, texts hold no quotes, and operations have the operands they take and
the types that these reveal.  A type stays unknown exactly where the operands decide and reveal
nothing.  Every comment has a text that a comment can have, and is written as one token in which the
text is found again.  And no line is empty unless empty lines are kept. -/
theorem evaluate_invariant {options : ParseOptions} {source : String} {p : Program}
    (h : evaluate options source = .ok p) :
    p.WellFormed ∧
    (∀ f o operands type, (f, Expression.operation o operands type) ∈ p.nodes →
      (type = .unknown ↔ o ∈ Operator.decided ∧ ∀ e ∈ operands, e.hint = none)) ∧
    (∀ text ∈ p.commentTexts, IsCommentText text ∧ ∀ followed, ∃ raw,
      Piece.tokens (commentPieces text followed) = [.comment raw] ∧ cleanComment raw = text) ∧
    ∀ r ∈ p.routines, ∀ s ∈ r.statements, s.kind = .noOp → options.keepEmptyLines = true := by
  have hp := wellFormed_of_evaluate h
  refine ⟨hp, ?_, ?_, ?_⟩
  · intro f o operands type hn
    obtain ⟨-, harity, htyped⟩ := hp.node hn
    exact htyped.eq_unknown_iff harity
  · intro text htext
    have hplain := hp.isCommentText text htext
    refine ⟨hplain, fun followed => ?_⟩
    exact ⟨_, tokens_commentPieces text followed, cleanComment_writtenComment hplain followed⟩
  · intro r hr s hs hkind
    obtain ⟨t, -, rfl⟩ := evaluate_eq_ok.mp h
    by_contra hkeep
    rw [Bool.not_eq_true] at hkeep
    rw [hkeep] at hr
    exact kind_ne_noOp hr hs hkind

/-- A text with comments in every place, operations with and without operands that decide, a
declaration of two names, parentheses and an empty line. -/
def annotatedText : String :=
  "// pays\nFunction Pay(a /* how\nmuch */ Uint64) String\n10 DIM s, t AS String /**/\n" ++
  "20 LET s = (t + s) + \"!\" // so */ far\n30\n40 IF ! a == t THEN GOTO 30\n" ++
  "50 RETURN s + t\nEnd Function\n/* the\n end */"

/-- What the text stands for where empty lines are kept. -/
def annotated : Program where
  headers := ["the\n end"]
  routines := [
    ⟨"Pay", .string, [⟨"a", .uint64⟩],
      [⟨10, .dim "s" .string⟩, ⟨10, .dim "t" .string⟩,
        ⟨20, .assign "s" (.operation (.arithmetic .add) [.operation (.arithmetic .add)
          [.name "t", .name "s"] .unknown, .value (.string "!")] .string)⟩,
        ⟨20, .comment "so */ far"⟩, ⟨30, .noOp⟩,
        ⟨40, .branch (.operation (.comparison .eq)
          [.operation (.bitwise .not) [.name "a"] .uint64, .name "t"] .uint64) 30 none⟩,
        ⟨50, .result (.operation (.arithmetic .add) [.name "s", .name "t"] .unknown)⟩],
      ["pays", "@arg=a:how\nmuch"]⟩]

theorem evaluate_annotatedText : evaluate ⟨true, false⟩ annotatedText = .ok annotated ∧
    annotated.WellFormed ∧ ∀ text ∈ annotated.commentTexts, IsCommentText text := by
  have h : evaluate ⟨true, false⟩ annotatedText = .ok annotated := by decide +kernel
  obtain ⟨hp, -, htexts, -⟩ := evaluate_invariant h
  exact ⟨h, hp, fun text htext => (htexts text htext).1⟩

end Program

end ContractBasic
