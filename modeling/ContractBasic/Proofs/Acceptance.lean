/-
Whether the text of a program that passes the checks passes them too.

The check of lines leaves out comments and empty lines before it looks for declarations that belong
together; the printer writes what stands between two declarations where it stands, and begins a new
declaration behind it.  So declarations of one line with a comment between them count as one statement
of the program and as two of its text, and the text is rejected.  Nothing else is.

* `Routine.nodup_takenLines_tree_iff` — the lines that the text of a function takes up are distinct
  exactly if nothing splits a declaration
* `Program.Writable.read_source_of_checks` — what becomes of the text of a program that passes
* `Program.read_generate_checked_iff` — it is read exactly if nothing splits a declaration
* `Program.not_read_generate_remarkedDeclaration` — a program that passes and whose text is rejected
-/
import ContractBasic.Proofs.Print.Retyping
import ContractBasic.Proofs.Rereading

namespace ContractBasic

/-! ### The lines of the text -/

/-- Where the lines of a function are distinct, those that its text takes up are so exactly if no
comment and no empty line splits a declaration. -/
theorem Routine.nodup_takenLines_tree_iff {r : Routine} (h : r.takenLines.Nodup) :
    r.tree.takenLines.Nodup ↔ Item.Unsplit r.statements := by
  constructor
  · intro htree
    rw [ParseTree.Routine.takenLines, tree, Item.takenLines_lines] at htree
    have hunsplit := Item.unsplit_of_nodup htree
    rwa [Item.flatMap_statements] at hunsplit
  · intro hunsplit
    rwa [takenLines_tree hunsplit]

namespace Program

/-! ### Reading the text -/

/-- A program passes the checks if one with the same code does. -/
theorem checked_of_code_eq {p q : Program} (hcode : q.code = p.code) (hlines : p.checkLines = .ok ())
    (hnames : p.checkNames (.ofProgram p) = .ok ()) : q.checked false = .ok q := by
  refine checked_eq_ok.mpr ⟨rfl, ?_, ?_, nofun⟩
  · rw [← checkLines_code, hcode, checkLines_code, hlines]
  · rw [← checkNames_code, ← SymbolTable.ofProgram_code, hcode, SymbolTable.ofProgram_code,
      checkNames_code, hnames]

/-- Of the checks, only that of the lines of the text can reject the text of a program that passes. -/
theorem Writable.read_source_of_checks {p : Program} (hp : p.Writable)
    (hlines : p.checkLines = .ok ()) (hnames : p.checkNames (.ofProgram p) = .ok ()) (l : Layout) :
    read .default (p.source l true) = (do
      p.tree.checkLines
      pure (p.retype.readback false)) := by
  obtain ⟨t, ht, hprogram, htree⟩ := hp.exists_ofSource false l
  have hreadback : ofTree false p.tree = p.retype.readback false := by
    rw [← p.tree_retype]
    refine Program.ofTree_tree false (hasArity_and_isTyped_retype fun r hr s hs => ?_)
    exact ((hp r hr).statements s hs).arity
  -- the program that is read has the code of the retyped one, and both other checks look at that alone
  have hchecked : (p.retype.readback false).checked false = .ok (p.retype.readback false) := by
    refine checked_of_code_eq (code_readback false _) ?_ ?_
    · rw [checkLines_retype, hlines]
    · rw [SymbolTable.ofProgram_retype, checkNames_retype, hnames]
  rw [read_eq, ht, ← htree]
  change (do t.checkLines; (ofTree false t).checked false) = _
  rw [hprogram, hreadback, hchecked]
  rfl

/-- The lines of the text of a program that passes are distinct exactly if nothing splits a
declaration. -/
theorem checkLines_tree_eq_ok_iff {p : Program} (hlines : p.checkLines = .ok ()) :
    p.tree.checkLines = .ok () ↔ ∀ r ∈ p.routines, Item.Unsplit r.statements := by
  rw [checkLines_eq_ok] at hlines
  rw [ParseTree.checkLines_eq_ok, tree, List.forall_mem_map]
  exact forall₂_congr fun r hr => Routine.nodup_takenLines_tree_iff (hlines r hr)

/-- What is said where the lines of the text of a program that passes are rejected. -/
theorem exists_of_checkLines_tree_eq_error {p : Program} (hlines : p.checkLines = .ok ()) {e : Error}
    (h : p.tree.checkLines = .error e) :
    ∃ r ∈ p.routines, (∃ ns, e = .duplicateLines r.name ns) ∧ ¬Item.Unsplit r.statements := by
  obtain ⟨before, t, after, hcut, -, hfails⟩ := forM_eq_error.mp h
  have ht : t ∈ p.tree.routines := by
    rw [hcut]
    exact List.mem_append_right _ List.mem_cons_self
  obtain ⟨r, hr, rfl⟩ := List.mem_map.mp ht
  obtain ⟨hnodup, he⟩ := checkDistinct_eq_error.mp hfails
  refine ⟨r, hr, ⟨_, he⟩, fun hunsplit => hnodup ?_⟩
  exact (Routine.nodup_takenLines_tree_iff (checkLines_eq_ok.mp hlines r hr)).mpr hunsplit

/-- **The text of a program that passes the checks is read exactly if no comment and no empty line
splits a declaration**, in either layout.  What is read has the code of the program, its operations
typed by their operands; what is rejected is rejected for the lines of a function with a declaration
that is split. -/
theorem read_generate_checked_iff {p : Program} (hp : p.Writable) (hlines : p.checkLines = .ok ())
    (hnames : p.checkNames (.ofProgram p) = .ok ()) (compact : Bool) :
    ((∃ q, read .default (p.generate ⟨false, true, compact⟩).code = .ok q) ↔
      ∀ r ∈ p.routines, Item.Unsplit r.statements) ∧
    (∀ q, read .default (p.generate ⟨false, true, compact⟩).code = .ok q →
      q.code = p.retype.code) ∧
    ∀ e, read .default (p.generate ⟨false, true, compact⟩).code = .error e →
      ∃ r ∈ p.routines, (∃ ns, e = .duplicateLines r.name ns) ∧ ¬Item.Unsplit r.statements := by
  have hread := hp.read_source_of_checks hlines hnames
    (GenerateOptions.layout ⟨false, true, compact⟩)
  have hcode : (p.generate ⟨false, true, compact⟩).code
      = p.source (GenerateOptions.layout ⟨false, true, compact⟩) true := rfl
  rw [hcode, hread, ← checkLines_tree_eq_ok_iff hlines]
  -- the check of the lines of the text decides, whichever way it ends
  cases htree : p.tree.checkLines with
  | ok u =>
    refine ⟨iff_of_true ⟨_, rfl⟩ rfl, ?_, nofun⟩
    rintro _ ⟨⟩
    exact code_readback false p.retype
  | error e =>
    refine ⟨iff_of_false (fun ⟨_, h⟩ => ?_) nofun, nofun, ?_⟩
    · cases h
    · rintro _ ⟨⟩
      exact exists_of_checkLines_tree_eq_error hlines htree

/-- A program with an operation of the wrong type, empty lines, comments of every kind before and
behind the declarations of a line, and two declarations of one name. -/
def ragged : Program where
  headers := ["", "*/\nEnd Function"]
  routines := [
    ⟨"Tally", .uint64, [⟨"x", .uint64⟩],
      [⟨30, .noOp⟩, ⟨30, .comment "*/\n10"⟩, ⟨30, .dim "y" .uint64⟩, ⟨30, .dim "y" .uint64⟩,
        ⟨30, .comment ""⟩, ⟨30, .noOp⟩, ⟨20, .dim "z" .string⟩,
        ⟨10, .assign "y" (.operation (.arithmetic .add) [.name "x", .value (.uint64 1)] .string)⟩,
        ⟨10, .comment " // "⟩, ⟨10, .noOp⟩, ⟨0, .result (.name "y")⟩],
      ["/* "]⟩]

theorem read_generate_ragged : ragged.Writable ∧ ragged.checkLines = .ok () ∧
    ragged.checkNames (.ofProgram ragged) = .ok () ∧
    ∃ q, read .default (ragged.generate ⟨false, true, true⟩).code = .ok q ∧
      q.code = ragged.retype.code := by
  have hp : ragged.Writable := by decide +kernel
  have hlines : ragged.checkLines = .ok () := by decide +kernel
  have hnames : ragged.checkNames (.ofProgram ragged) = .ok () := by decide +kernel
  obtain ⟨hiff, hsame, -⟩ := read_generate_checked_iff hp hlines hnames true
  obtain ⟨q, hq⟩ := hiff.mpr (by decide +kernel)
  exact ⟨hp, hlines, hnames, q, hq, hsame q hq⟩

/-- A program with a comment between two declarations of one line and one type. -/
def remarkedDeclaration : Program where
  headers := []
  routines := [⟨"F", .uint64, [],
    [⟨10, .dim "a" .uint64⟩, ⟨10, .comment "c"⟩, ⟨10, .dim "b" .uint64⟩], []⟩]

/-- The program passes the checks, and its text is rejected for two statements on one line. -/
theorem not_read_generate_remarkedDeclaration : remarkedDeclaration.Writable ∧
    remarkedDeclaration.checkLines = .ok () ∧
    remarkedDeclaration.checkNames (.ofProgram remarkedDeclaration) = .ok () ∧
    ∀ compact, read .default (remarkedDeclaration.generate ⟨false, true, compact⟩).code
      = .error (.duplicateLines "F" [10]) := by
  decide +kernel

end Program

end ContractBasic
