/-
Reading what was written.

A program that a source text can express is read back from its own text, in every layout; without
its comments, it is read back from its text without comments.

* `Program.Writable.evaluate_source`, `Program.Writable.read_source` — what becomes of the text of a
  program that can be written
* `Program.Renderable` — the programs that source text can express
* `Program.withoutComments` — a program without its comments and headers
* `Program.read_generate` — what is generated for a renderable program is read as the program
-/
import ContractBasic.Generate
import ContractBasic.Proofs.Program.Code
import ContractBasic.Proofs.Program.Lines
import ContractBasic.Proofs.WellFormed

namespace ContractBasic

/-! ### Offsets -/

theorem cleanComments_unplaced (cs : List Comment) :
    cleanComments (cs.map Placed.unplaced) = cleanComments cs := by
  rw [cleanComments, List.map_map]
  rfl

theorem ofLine_unplaced (keep : Bool) (l : ParseTree.Line) :
    Statement.ofLine keep l.unplaced = Statement.ofLine keep l := by
  simp [Statement.ofLine, ParseTree.Line.unplaced, cleanComments_unplaced]

/-- The program of a tree does not depend on offsets. -/
theorem Program.ofTree_unplaced (keep : Bool) (t : ParseTree) :
    ofTree keep t.unplaced = ofTree keep t := by
  have hroutine : ∀ r : ParseTree.Routine,
      Routine.ofTree keep r.unplaced = Routine.ofTree keep r := by
    intro r
    have hmarked : ∀ p : ParseTree.Param, markedComments p.unplaced = markedComments p := by
      intro p
      rw [markedComments, ParseTree.Param.unplaced, cleanComments_unplaced]
      rfl
    simp only [Routine.ofTree, ParseTree.Routine.unplaced, cleanComments_unplaced,
      List.flatMap_map, List.map_map, ofLine_unplaced, hmarked]
    rfl
  simp [ofTree, ParseTree.unplaced, cleanComments_unplaced, hroutine, Function.comp_def]

/-- The lines of a tree do not depend on offsets. -/
theorem ParseTree.checkLines_unplaced (t : ParseTree) : t.unplaced.checkLines = t.checkLines := by
  rw [← forget_offsets, checkLines_forget]

/-! ### Programs that source text can express -/

namespace Program

/-- The texts of the comments of a program: those of its functions, of their statements, and those
that stand with no function. -/
def commentTexts (p : Program) : List String :=
  p.routines.flatMap (fun r => r.comments ++ r.statements.filterMap (·.kind.text?)) ++ p.headers

/-- Whether source text can express a program.  Names are words and texts hold no quotes; types can
be declared; operations have the operands they take and the types that these reveal; bare
expressions are not taken for something else; comments have texts that comments can have and do not
split a declaration; no line is empty; and the checks of lines and names pass. -/
structure Renderable (p : Program) : Prop where
  writable : p.Writable
  typed : ∀ r ∈ p.routines, ∀ s ∈ r.statements, s.IsTyped
  texts : ∀ text ∈ p.commentTexts, IsCommentText text
  unsplit : ∀ r ∈ p.routines, Item.Unsplit r.statements
  noOp : ∀ r ∈ p.routines, ∀ s ∈ r.statements, s.kind ≠ .noOp
  lines : p.checkLines = .ok ()
  names : p.checkNames (.ofProgram p) = .ok ()

instance : DecidablePred Renderable := fun p =>
  decidable_of_iff (p.Writable ∧ (∀ r ∈ p.routines, ∀ s ∈ r.statements, s.IsTyped) ∧
    (∀ text ∈ p.commentTexts, IsCommentText text) ∧
    (∀ r ∈ p.routines, Item.Unsplit r.statements) ∧
    (∀ r ∈ p.routines, ∀ s ∈ r.statements, s.kind ≠ .noOp) ∧ p.checkLines = .ok () ∧
    p.checkNames (.ofProgram p) = .ok ())
    ⟨fun ⟨h₁, h₂, h₃, h₄, h₅, h₆, h₇⟩ => ⟨h₁, h₂, h₃, h₄, h₅, h₆, h₇⟩,
      fun h => ⟨h.writable, h.typed, h.texts, h.unsplit, h.noOp, h.lines, h.names⟩⟩

/-- A program that can be written is well formed if its operations have the types that their operands
reveal and its comments have texts that comments can have. -/
theorem Writable.wellFormed {p : Program} (hp : p.Writable)
    (htyped : ∀ r ∈ p.routines, ∀ s ∈ r.statements, s.IsTyped)
    (htexts : ∀ text ∈ p.commentTexts, IsCommentText text) : p.WellFormed := by
  have htext : ∀ r ∈ p.routines, ∀ text ∈ r.comments ++ r.statements.filterMap (·.kind.text?),
      IsCommentText text := fun r hr text h =>
    htexts text (List.mem_append_left _ (List.mem_flatMap.mpr ⟨r, hr, h⟩))
  constructor
  case routines =>
    intro r hr
    have hwritable := hp r hr
    refine ⟨hwritable.name, hwritable.returnType, hwritable.params, fun s hs => ?_,
      fun text h => htext r hr text (List.mem_append_left _ h)⟩
    have hstatement := hwritable.statements s hs
    refine ⟨hstatement.spellable.target, ?_, hstatement.declarable, ?_⟩
    · exact fun e he n hn => ⟨hstatement.spellable.nodes e he n hn, hstatement.arity e he n hn,
        htyped r hr s hs e he n hn⟩
    · intro text hkind
      exact htext r hr text (List.mem_append_right _ (List.mem_filterMap.mpr ⟨s, hs, hkind⟩))
  case headers => exact fun text h => htexts text (List.mem_append_right _ h)

theorem Renderable.wellFormed {p : Program} (hp : p.Renderable) : p.WellFormed :=
  hp.writable.wellFormed hp.typed hp.texts

/-- The comments of a well-formed program have texts that comments can have. -/
theorem WellFormed.isCommentText {p : Program} (hp : p.WellFormed) :
    ∀ text ∈ p.commentTexts, IsCommentText text := by
  intro text htext
  rcases List.mem_append.mp htext with htext | htext
  · obtain ⟨r, hr, htext⟩ := List.mem_flatMap.mp htext
    rcases List.mem_append.mp htext with htext | htext
    · exact (hp.routines r hr).comments text htext
    · obtain ⟨s, hs, hkind⟩ := List.mem_filterMap.mp htext
      exact ((hp.routines r hr).statements s hs).plain text hkind
  · exact hp.headers text htext

/-- A well-formed program is renderable if it passes the checks, its bare expressions claim no lines,
no comment splits a declaration and no line is empty. -/
theorem WellFormed.renderable {p : Program} (hp : p.WellFormed)
    (hunclaimed : ∀ r ∈ p.routines, ∀ s ∈ r.statements, s.Unclaimed)
    (hunsplit : ∀ r ∈ p.routines, Item.Unsplit r.statements)
    (hnoOp : ∀ r ∈ p.routines, ∀ s ∈ r.statements, s.kind ≠ .noOp)
    (hlines : p.checkLines = .ok ()) (hnames : p.checkNames (.ofProgram p) = .ok ()) :
    p.Renderable := by
  refine ⟨?_, ?_, hp.isCommentText, hunsplit, hnoOp, hlines, hnames⟩
  · intro r hr
    have hwell := hp.routines r hr
    refine ⟨hwell.name, hwell.returnType, hwell.params, fun s hs => ?_⟩
    have hstatement := hwell.statements s hs
    exact ⟨hstatement.spellable, hstatement.hasArity, hstatement.declarable, hunclaimed r hr s hs⟩
  · exact fun r hr s hs => ((hp.routines r hr).statements s hs).isTyped

/-- The text of a program that can be spelled is read by the lexer piece by piece. -/
theorem lex_source {p : Program} (hp : p.Spellable) (l : Layout) (comments : Bool) :
    (lex (p.source l comments).toList).fault = none ∧
      (lex (p.source l comments).toList).tokens.map Placed.item
        = Piece.tokens (p.pieces l comments) := by
  have hchars : (p.source l comments).toList = (p.pieces l comments).flatMap Piece.chars := by
    rw [source, Piece.render, String.toList_ofList]
  rw [hchars]
  exact Piece.lexFrom_of_legible (legible_pieces l comments hp) 0

/-- The text of a program that can be written is parsed as its tree, up to offsets. -/
theorem Writable.ofSource {p : Program} (hp : p.Writable) (l : Layout) :
    ∃ t, ParseTree.ofSource (p.source l true) = .ok t ∧ t.unplaced = p.tree.unplaced := by
  obtain ⟨hfault, htokens⟩ := lex_source hp.spellable l true
  have hrow := fits_pieces l fun r hr s hs => ((hp r hr).statements s hs).arity
  rw [← htokens] at hrow
  obtain ⟨t, ht, hunplaced⟩ := parse_of_row hp.regular_tree hfault hrow
  exact ⟨t, ofSource_eq_ok.mpr ht, hunplaced⟩

/-- The tree of the text of a program that can be written stands for what the tree of the program
stands for, and takes up its lines. -/
theorem Writable.exists_ofSource {p : Program} (hp : p.Writable) (keep : Bool) (l : Layout) :
    ∃ t, ParseTree.ofSource (p.source l true) = .ok t ∧ ofTree keep t = ofTree keep p.tree ∧
      t.checkLines = p.tree.checkLines := by
  obtain ⟨t, ht, hunplaced⟩ := hp.ofSource l
  refine ⟨t, ht, ?_, ?_⟩
  · rw [← ofTree_unplaced, hunplaced, ofTree_unplaced]
  · rw [← ParseTree.checkLines_unplaced, hunplaced, ParseTree.checkLines_unplaced]

theorem Writable.ofTree_tree {p : Program} (hp : p.Writable)
    (htyped : ∀ r ∈ p.routines, ∀ s ∈ r.statements, s.IsTyped) (keep : Bool) :
    ofTree keep p.tree = p.readback keep :=
  Program.ofTree_tree keep fun r hr s hs => ⟨((hp r hr).statements s hs).arity, htyped r hr s hs⟩

/-- The text of a program that can be written is evaluated to what the program is read back as. -/
theorem Writable.evaluate_source {p : Program} (hp : p.Writable)
    (htyped : ∀ r ∈ p.routines, ∀ s ∈ r.statements, s.IsTyped) (options : ParseOptions)
    (l : Layout) :
    evaluate options (p.source l true) = .ok (p.readback options.keepEmptyLines) := by
  obtain ⟨t, ht, hprogram, -⟩ := hp.exists_ofSource options.keepEmptyLines l
  rw [evaluate, ht, ← hp.ofTree_tree htyped, ← hprogram]
  rfl

/-- Reading the text of a program that can be written is checking what the program is read back
as. -/
theorem Writable.read_source {p : Program} (hp : p.Writable)
    (htyped : ∀ r ∈ p.routines, ∀ s ∈ r.statements, s.IsTyped) (options : ParseOptions)
    (l : Layout) :
    read options (p.source l true) = (do
      p.tree.checkLines
      (p.readback options.keepEmptyLines).checked options.checkTargets) := by
  obtain ⟨t, ht, hprogram, hlines⟩ := hp.exists_ofSource options.keepEmptyLines l
  rw [read_eq, ht, ← hp.ofTree_tree htyped, ← hprogram, ← hlines]
  rfl

/-- The text of a renderable program is read as the program. -/
theorem Renderable.read_source {p : Program} (hp : p.Renderable) (l : Layout) :
    read .default (p.source l true) = .ok p := by
  rw [hp.writable.read_source hp.typed, checkLines_tree hp.unsplit,
    hp.wellFormed.readback_eq_self _ hp.noOp, bind_eq_ok, checked_eq_ok]
  exact ⟨hp.lines, rfl, hp.lines, hp.names, nofun⟩

end Program

/-! ### Without comments -/

/-- A function without its comments. -/
def Routine.withoutComments (r : Routine) : Routine :=
  { r with statements := r.statements.filter (fun s => !s.kind.isComment), comments := [] }

/-- A program without its comments and headers. -/
def Program.withoutComments (p : Program) : Program :=
  ⟨[], p.routines.map Routine.withoutComments⟩

theorem StatementKind.not_isComment {k : StatementKind} (h : k ≠ .noOp) :
    (!k.isComment) = k.isExecutable := by
  cases k <;> first | rfl | exact absurd rfl h

/-- A program without empty lines is its code when its comments are gone. -/
theorem Program.withoutComments_eq_code {p : Program}
    (h : ∀ r ∈ p.routines, ∀ s ∈ r.statements, s.kind ≠ .noOp) : p.withoutComments = p.code := by
  refine congrArg (mk []) (List.map_congr_left fun r hr => ?_)
  have hfilter : r.statements.filter (fun s => !s.kind.isComment)
      = r.statements.filter fun s => s.kind.isExecutable :=
    List.filter_congr fun s hs => StatementKind.not_isComment (h r hr s hs)
  rw [Routine.withoutComments, Routine.code, hfilter]

/-- A program is written without comments as its code is written with them. -/
theorem Program.pieces_code (l : Layout) (p : Program) : p.code.pieces l true = p.pieces l false := by
  have hroutine : ∀ r : Routine, r.code.pieces l true = r.pieces l false := by
    intro r
    simp [Routine.pieces, Routine.code, Routine.heading]
  have hroutines : p.code.routines.map (Routine.pieces l true)
      = p.routines.map (Routine.pieces l false) := by
    rw [code, List.map_map]
    exact List.map_congr_left fun r _ => hroutine r
  rw [pieces, pieces, hroutines]
  simp [code]

theorem Program.pieces_withoutComments (l : Layout) {p : Program}
    (h : ∀ r ∈ p.routines, ∀ s ∈ r.statements, s.kind ≠ .noOp) :
    p.withoutComments.pieces l true = p.pieces l false := by
  rw [withoutComments_eq_code h, pieces_code]

namespace Program

theorem Renderable.withoutComments {p : Program} (hp : p.Renderable) :
    p.withoutComments.Renderable := by
  have hmem : ∀ q ∈ p.withoutComments.routines, ∃ r ∈ p.routines, r.withoutComments = q :=
    fun q hq => List.mem_map.mp hq
  -- what is left was there before, and is no comment
  have hstatement : ∀ {r : Routine}, ∀ s ∈ r.withoutComments.statements,
      s ∈ r.statements ∧ s.kind.isComment = false := by
    intro r s hs
    obtain ⟨hs, hkind⟩ := List.mem_filter.mp hs
    exact ⟨hs, by simpa using hkind⟩
  constructor
  case writable =>
    intro q hq
    obtain ⟨r, hr, rfl⟩ := hmem q hq
    have h := hp.writable r hr
    exact ⟨h.name, h.returnType, h.params, fun s hs => h.statements s (hstatement s hs).1⟩
  case typed =>
    intro q hq s hs
    obtain ⟨r, hr, rfl⟩ := hmem q hq
    exact hp.typed r hr s (hstatement s hs).1
  case texts =>
    intro text htext
    rcases List.mem_append.mp htext with htext | htext
    · obtain ⟨q, hq, htext⟩ := List.mem_flatMap.mp htext
      obtain ⟨r, hr, rfl⟩ := hmem q hq
      rcases List.mem_append.mp htext with htext | htext
      · cases htext
      · obtain ⟨s, hs, hkind⟩ := List.mem_filterMap.mp htext
        have hcomment := (hstatement s hs).2
        cases hk : s.kind <;> rw [hk] at hkind hcomment <;> cases hkind
        cases hcomment
    · cases htext
  case unsplit =>
    intro q hq a c b hsub
    obtain ⟨r, hr, rfl⟩ := hmem q hq
    exact hp.unsplit r hr a c b (hsub.trans List.filter_sublist)
  case noOp =>
    intro q hq s hs
    obtain ⟨r, hr, rfl⟩ := hmem q hq
    exact hp.noOp r hr s (hstatement s hs).1
  -- both checks are checks of the code alone
  case lines => rw [withoutComments_eq_code hp.noOp, checkLines_code, hp.lines]
  case names =>
    rw [withoutComments_eq_code hp.noOp, SymbolTable.ofProgram_code, checkNames_code, hp.names]

/-- **What is generated for a renderable program is read as the program**, in either layout; where
comments are left out, it is read as the program without its comments and headers. -/
theorem read_generate {p : Program} (hp : p.Renderable) (comments compact : Bool) :
    read .default (p.generate ⟨false, comments, compact⟩).code
      = .ok (if comments then p else p.withoutComments) := by
  have hcode : (p.generate ⟨false, comments, compact⟩).code
      = p.source (GenerateOptions.layout ⟨false, comments, compact⟩) comments := rfl
  rw [hcode]
  cases comments with
  | true => exact hp.read_source _
  | false =>
    rw [source, ← pieces_withoutComments _ hp.noOp]
    exact hp.withoutComments.read_source _

/-- A program with a declaration of two variables, comments on their lines, nested operations and a
header. -/
def ledger : Program where
  headers := ["the end\nof it"]
  routines := [
    ⟨"Deposit", .uint64, [⟨"amount", .uint64⟩],
      [⟨10, .dim "total" .uint64⟩, ⟨10, .dim "step" .uint64⟩, ⟨10, .comment "two counters"⟩,
        ⟨10, .comment "of one type"⟩,
        ⟨20, .assign "step" (.operation (.arithmetic .mul) [.name "amount",
          .operation (.arithmetic .add) [.value (.uint64 1), .name "total"] .uint64] .uint64)⟩,
        ⟨30, .branch (.operation (.bitwise .not) [.call "exists" [.value (.string "total")]] .uint64)
          50 (some 40)⟩,
        ⟨40, .evaluate (.call "STORE" [.value (.string "total"), .name "step"])⟩,
        ⟨45, .comment "done"⟩, ⟨50, .result (.value (.uint64 0))⟩],
      ["takes an amount"]⟩]

theorem read_generate_ledger : ledger.Renderable ∧
    read .default (ledger.generate ⟨false, true, true⟩).code = .ok ledger ∧
    read .default (ledger.generate ⟨false, false, false⟩).code = .ok ledger.withoutComments := by
  have h : ledger.Renderable := by decide +kernel
  exact ⟨h, read_generate h true true, read_generate h false false⟩

end Program

end ContractBasic
