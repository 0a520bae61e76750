/-
Declarations that are written together.

A program that is written without comments has its declarations joined by the printer, and the check of
lines joins them too, in a pass of its own.  Both cut the statements at the same places: each function of
the text holds a statement on the line of every statement that the pass finds to open a group, and on no
other line.  So the check of the text says what the check of the program says.

* `Program.Writable.code` — what can be written can be written without its comments
* `ParseTree.checkLines_eq_forM`, `Program.checkLines_eq_forM` — a check of lines looks at the names of
  the functions and the lines that they take up
* `Program.checkLines_generate` — the lines of the text, and what is reported about them
-/
import ContractBasic.Proofs.Program.Groups
import ContractBasic.Proofs.RoundTrip

namespace ContractBasic

namespace ParseTree

/-- What is reported about the lines of a text hangs on the names of its functions and on the lines that
they take up. -/
theorem checkLines_eq_forM (t : ParseTree) : t.checkLines
    = (t.routines.map fun r => (r.name, r.takenLines)).forM fun f => checkDistinct f.1 f.2 := by
  rw [checkLines, List.forM_eq_forM, List.forM_eq_forM, List.forM_map]

/-- What a function takes up does not depend on offsets. -/
theorem map_takenLines_unplaced (t : ParseTree) :
    t.unplaced.routines.map (fun r => (r.name, r.takenLines))
      = t.routines.map fun r => (r.name, r.takenLines) := by
  rw [unplaced, List.map_map]
  refine List.map_congr_left fun r _ => ?_
  have htaken : r.unplaced.takenLines = r.takenLines := by
    simp [Routine.takenLines, Routine.unplaced, List.filter_map, Function.comp_def, Line.unplaced]
  rw [Function.comp_apply, htaken]
  rfl

end ParseTree

namespace Program

/-- What is reported about the lines of a program hangs on the names of its functions and on the lines
that they take up. -/
theorem checkLines_eq_forM (p : Program) : p.checkLines
    = (p.routines.map fun r => (r.name, r.takenLines)).forM fun f => checkDistinct f.1 f.2 := by
  rw [checkLines, List.forM_eq_forM, List.forM_eq_forM, List.forM_map]

/-- What can be written can be written without its comments and empty lines. -/
theorem Writable.code {p : Program} (hp : p.Writable) : p.code.Writable := by
  intro q hq
  obtain ⟨r, hr, rfl⟩ := List.mem_map.mp hq
  have h := hp r hr
  exact ⟨h.name, h.returnType, h.params, fun s hs => h.statements s (List.mem_of_mem_filter hs)⟩

/-- Code takes up the lines of its tree: no comment and no empty line splits a declaration. -/
theorem map_takenLines_tree_code (p : Program) :
    p.code.tree.routines.map (fun r => (r.name, r.takenLines))
      = p.routines.map fun r => (r.name, r.takenLines) := by
  rw [tree, Program.code, List.map_map, List.map_map]
  refine List.map_congr_left fun r _ => ?_
  -- nothing that takes up no line is left, so nothing stands between two declarations
  have hunsplit : Item.Unsplit r.code.statements := by
    intro a c b hsub _ _ hc
    obtain ⟨-, hexec⟩ := List.mem_filter.mp (hsub.subset (by simp : c ∈ [a, c, b]))
    rw [hc] at hexec
    cases hexec
  have htaken : r.code.tree.takenLines = r.takenLines := by
    rw [Routine.takenLines_tree hunsplit, Routine.takenLines_code]
  rw [Function.comp_apply, Function.comp_apply, htaken]
  rfl

/-- **The declarations that are written together are those that the check of lines counts as one.**  The
text of a program without its comments is parsed, in either layout; each of its functions takes up the
lines of the statements that open a group of the program; and its lines are checked with the same result,
function and lines included. -/
theorem checkLines_generate {p : Program} (hp : p.Writable) (compact : Bool) :
    ∃ t, ParseTree.ofSource (p.generate ⟨false, false, compact⟩).code = .ok t ∧
      t.routines.map (fun r => (r.name, r.takenLines))
        = p.routines.map (fun r => (r.name, r.leaders.map (·.line))) ∧
      t.checkLines = p.checkLines := by
  -- a text without comments is the text of the code
  have hcode : (p.generate ⟨false, false, compact⟩).code
      = p.code.source (GenerateOptions.layout ⟨false, false, compact⟩) true := by
    rw [source, pieces_code]
    rfl
  obtain ⟨t, ht, hunplaced⟩ := hp.code.ofSource (GenerateOptions.layout ⟨false, false, compact⟩)
  -- offsets are no matter to the lines that are taken up
  have htaken : t.routines.map (fun r => (r.name, r.takenLines))
      = p.routines.map fun r => (r.name, r.takenLines) := by
    rw [← ParseTree.map_takenLines_unplaced, hunplaced, ParseTree.map_takenLines_unplaced,
      map_takenLines_tree_code]
  refine ⟨t, by rw [hcode, ht], ?_, ?_⟩
  · simp only [htaken, Routine.takenLines_eq]
  · rw [ParseTree.checkLines_eq_forM, htaken, ← checkLines_eq_forM]

/-- A program whose second function comes back to a line, with declarations that comments and empty
lines stand between, that change their type on a line, and that go on with another line. -/
def interleaved : Program where
  headers := ["*/"]
  routines := [
    ⟨"Clear", .string, [], [⟨7, .comment "\n"⟩, ⟨7, .noOp⟩], [""]⟩,
    ⟨"Mix", .uint64, [⟨"x", .uint64⟩],
      [⟨10, .dim "a" .uint64⟩, ⟨10, .comment "*/ 10 RETURN 1"⟩, ⟨10, .dim "b" .uint64⟩, ⟨10, .noOp⟩,
        ⟨20, .dim "c" .uint64⟩, ⟨20, .dim "c" .string⟩, ⟨10, .dim "d" .uint64⟩,
        ⟨5, .evaluate (.operation (.arithmetic .add) [.name "x", .name "y"] .string)⟩,
        ⟨5, .comment ""⟩, ⟨20, .goto 99⟩],
      []⟩]

theorem checkLines_generate_interleaved : interleaved.Writable ∧
    ∃ t, ParseTree.ofSource (interleaved.generate ⟨false, false, true⟩).code = .ok t ∧
      t.routines.map (fun r => (r.name, r.takenLines))
        = [("Clear", []), ("Mix", [10, 20, 20, 10, 5, 20])] ∧
      t.checkLines = .error (.duplicateLines "Mix" [10, 20]) := by
  have hp : interleaved.Writable := by decide +kernel
  obtain ⟨t, ht, hlines, hcheck⟩ := checkLines_generate hp true
  have hleaders : interleaved.routines.map (fun r => (r.name, r.leaders.map (·.line)))
      = [("Clear", []), ("Mix", [10, 20, 20, 10, 5, 20])] := by decide +kernel
  have hreport : interleaved.checkLines = .error (.duplicateLines "Mix" [10, 20]) := by decide +kernel
  exact ⟨hp, t, ht, hlines.trans hleaders, hcheck.trans hreport⟩

end Program

end ContractBasic
