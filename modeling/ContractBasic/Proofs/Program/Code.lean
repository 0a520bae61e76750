/-
The code of a program.

Comments, headers and empty lines say nothing about what a program does.  What is left without them
is the code of the program, and no check looks at more than that.

* `Program.code` — a program without its comments, headers and empty lines
* `SymbolTable.ofProgram_mk_map`, `Program.checkLines_mk_map` — what replacing functions leaves alone
* `Program.read_eq` — reading a text is finding its tree and then checking
* `Program.checked_code` — the checks find in the code what they find in the program
-/
import ContractBasic.Program.Read
import ContractBasic.Proofs.Program.Nodes

namespace ContractBasic

/-- A function without its comments and empty lines. -/
def Routine.code (r : Routine) : Routine :=
  { r with statements := r.statements.filter (fun s => s.kind.isExecutable), comments := [] }

/-- A program without its comments, headers and empty lines. -/
def Program.code (p : Program) : Program := ⟨[], p.routines.map Routine.code⟩

/-- A program has the code of another if its functions are those of the other with their code kept. -/
theorem Program.code_mk_map {f : Routine → Routine} (h : ∀ r, (f r).code = r.code)
    (headers : List String) (p : Program) : code ⟨headers, p.routines.map f⟩ = p.code := by
  rw [code, code, List.map_map]
  exact congrArg (mk []) (List.map_congr_left fun r _ => h r)

/-! ### Functions replaced by others -/

section Replaced

variable {f : Routine → Routine} (hname : ∀ r, (f r).name = r.name)

include hname

/-- A program whose functions are replaced by ones that declare the same has the same declarations. -/
theorem SymbolTable.ofProgram_mk_map (hreturn : ∀ r, (f r).returnType = r.returnType)
    (hdeclarations : ∀ r, declarations (f r) = declarations r) (headers : List String) (p : Program) :
    ofProgram ⟨headers, p.routines.map f⟩ = ofProgram p := by
  have hlocals : ∀ (t : SymbolTable) (r : Routine), t.declareLocals (f r) = t.declareLocals r := by
    intro t r
    rw [declareLocals, declareLocals, hdeclarations, hname]
  simp only [ofProgram, List.foldl_map, hname, hreturn, hlocals]

/-- A program whose functions are replaced by ones that take up the same lines passes the check of
lines as it did. -/
theorem Program.checkLines_mk_map (htaken : ∀ r, (f r).takenLines = r.takenLines)
    (headers : List String) (p : Program) :
    checkLines ⟨headers, p.routines.map f⟩ = p.checkLines := by
  rw [checkLines, checkLines]
  refine forM_map_congr fun r _ => ?_
  rw [hname, htaken]

end Replaced

/-! ### What the checks look at -/

namespace Routine

/-- The lines that hold code are those of the code. -/
theorem takenLines_code (r : Routine) : r.code.takenLines = r.takenLines := by
  rw [takenLines, takenLines, code, List.filter_filter]
  simp only [Bool.and_self]

theorem executableLines_code (r : Routine) : r.code.executableLines = r.executableLines := by
  rw [executableLines, executableLines, code, List.filter_filter]
  simp only [Bool.and_self]

/-- What does not take up a line is looked at by no check that goes through the statements. -/
theorem flatMap_code {α : Type} (f : Statement → List α) (r : Routine)
    (h : ∀ s, s.kind.isExecutable = false → f s = []) :
    r.code.statements.flatMap f = r.statements.flatMap f := by
  rw [code]
  induction r.statements with
  | nil => rfl
  | cons s ss ih =>
    rw [List.filter_cons, List.flatMap_cons, ← ih]
    cases hs : s.kind.isExecutable with
    | false => rw [if_neg Bool.false_ne_true, h s hs, List.nil_append]
    | true => rw [if_pos rfl, List.flatMap_cons]

theorem jumps_code (r : Routine) : r.code.jumps = r.jumps := by
  refine flatMap_code _ r fun s hs => ?_
  cases hk : s.kind <;> rw [hk] at hs <;> first | rfl | cases hs

theorem nodes_code (r : Routine) : r.code.nodes = r.nodes := by
  refine flatMap_code _ r fun s hs => ?_
  cases hk : s.kind <;> rw [hk] at hs <;> first | rfl | cases hs

end Routine

/-- Comments and empty lines declare nothing. -/
theorem SymbolTable.declarations_code (r : Routine) : declarations r.code = declarations r := by
  rw [declarations, declarations, Routine.code, List.filterMap_filter]
  congr 2
  funext s
  cases s.kind <;> rfl

theorem SymbolTable.ofProgram_code (p : Program) : ofProgram p.code = ofProgram p :=
  ofProgram_mk_map (f := Routine.code) (fun _ => rfl) (fun _ => rfl) declarations_code [] p

namespace Program

theorem nodes_code (p : Program) : p.code.nodes = p.nodes := by
  simp only [nodes, code, List.flatMap_map, Routine.nodes_code]
  rfl

theorem checkLines_code (p : Program) : p.code.checkLines = p.checkLines :=
  checkLines_mk_map (f := Routine.code) (fun _ => rfl) Routine.takenLines_code [] p

theorem checkNames_code (p : Program) (t : SymbolTable) : p.code.checkNames t = p.checkNames t := by
  rw [checkNames, checkNames, visit_eq, visit_eq, nodes_code]

theorem checkTargets_code (p : Program) : p.code.checkTargets = p.checkTargets := by
  rw [checkTargets, checkTargets, code]
  refine forM_map_congr fun r _ => ?_
  rw [Routine.checkTargets, Routine.checkTargets, Routine.jumps_code, Routine.executableLines_code]
  rfl

/-! ### Checked programs -/

/-- A program, if it passes the checks that follow those of its tree. -/
def checked (targets : Bool) (p : Program) : Except Error Program := do
  p.checkLines
  p.checkNames (.ofProgram p)
  if targets then
    p.checkTargets
  pure p

/-- Reading is finding the tree of a text, and then checking the tree and its program. -/
theorem read_eq (options : ParseOptions) (source : String) :
    read options source = (do
      let tree ← ParseTree.ofSource source
      tree.checkLines
      (ofTree options.keepEmptyLines tree).checked options.checkTargets) :=
  rfl

/-- What follows a check is reached exactly if the check passes. -/
theorem bind_eq_ok {ε α : Type} {x : Except ε Unit} {y : Except ε α} {a : α} :
    (do x; y) = .ok a ↔ x = .ok () ∧ y = .ok a := by
  cases x with
  | error e => simp [bind, Except.bind]
  | ok u => simp [bind, Except.bind]

/-- A program passes exactly if every check does. -/
theorem checked_eq_ok {targets : Bool} {p q : Program} :
    p.checked targets = .ok q ↔ p = q ∧ p.checkLines = .ok () ∧
      p.checkNames (.ofProgram p) = .ok () ∧ (targets = true → p.checkTargets = .ok ()) := by
  have hpure : (pure p : Except Error Program) = .ok q ↔ p = q := by simp [pure, Except.pure]
  cases targets with
  | false =>
    simp only [checked, Bool.false_eq_true, if_false, bind_eq_ok, hpure]
    exact ⟨fun ⟨h, h', heq⟩ => ⟨heq, h, h', nofun⟩, fun ⟨heq, h, h', _⟩ => ⟨h, h', heq⟩⟩
  | true =>
    simp only [checked, if_true, bind_eq_ok, hpure]
    exact ⟨fun ⟨h, h', h'', heq⟩ => ⟨heq, h, h', fun _ => h''⟩,
      fun ⟨heq, h, h', h''⟩ => ⟨h, h', h'' trivial, heq⟩⟩

/-- The checks find in the code of a program what they find in the program. -/
theorem checked_code (targets : Bool) (p : Program) :
    p.code.checked targets = (p.checked targets).map code := by
  rw [checked, checked, checkLines_code, SymbolTable.ofProgram_code, checkNames_code,
    checkTargets_code]
  cases p.checkLines with
  | error e => rfl
  | ok u =>
    cases p.checkNames (.ofProgram p) with
    | error e => rfl
    | ok v =>
      cases targets with
      | false => rfl
      | true => cases p.checkTargets <;> rfl

/-- What is read is the program of the tree of the text, and both pass the checks. -/
theorem read_eq_ok {options : ParseOptions} {source : String} {p : Program} :
    read options source = .ok p ↔ ∃ t, ParseTree.ofSource source = .ok t ∧
      ofTree options.keepEmptyLines t = p ∧ t.checkLines = .ok () ∧ p.checkLines = .ok () ∧
      p.checkNames (.ofProgram p) = .ok () ∧
      (options.checkTargets = true → p.checkTargets = .ok ()) := by
  rw [read_eq]
  cases ParseTree.ofSource source with
  | error e => simp [bind, Except.bind]
  | ok t =>
    change (do t.checkLines; (ofTree options.keepEmptyLines t).checked options.checkTargets) = _ ↔ _
    rw [bind_eq_ok, checked_eq_ok]
    constructor
    · -- the lines are checked twice, on the tree of the text and on its program
      rintro ⟨hlines, rfl, hchecks⟩
      exact ⟨t, rfl, rfl, hlines, hchecks⟩
    · rintro ⟨_, ⟨⟩, rfl, hlines, hchecks⟩
      exact ⟨hlines, rfl, hchecks⟩

end Program

end ContractBasic
