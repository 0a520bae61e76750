/-
Programs whose operations are typed by their operands.

The type of an operation is not printed, so whatever types a program has, its text is that of the
program with the types that the operands reveal.  No check looks at them either.

* `Program.retype` — a program with every operation typed by its operands
* `Program.tree_retype` — it is printed as the same tree
* `Program.checkLines_retype`, `Program.checkNames_retype` — the checks find the same in it
-/
import ContractBasic.Proofs.Print.Readback
import ContractBasic.Proofs.Program.Code

namespace ContractBasic

/-! ### Expressions -/

/-- The type of an operation on operands; with a number of operands that no operator takes, nothing is
known of it. -/
def Operator.typeOn (o : Operator) : List Expression → ValueType
  | [e] => o.resultType none e.hint
  | [l, r] => o.resultType l.hint r.hint
  | _ => .unknown

namespace Expression

mutual

/-- An expression with its operations typed by their operands. -/
def retype : Expression → Expression
  | .value l => .value l
  | .name n => .name n
  | .call f args => .call f (retypeAll args)
  | .operation o operands _ =>
    .operation o (retypeAll operands) (o.typeOn (retypeAll operands))

/-- Expressions with their operations typed by their operands. -/
def retypeAll : List Expression → List Expression
  | [] => []
  | e :: es => retype e :: retypeAll es

end

theorem retypeAll_eq_map (es : List Expression) : retypeAll es = es.map retype := by
  induction es with
  | nil => rfl
  | cons e es ih => rw [retypeAll, ih, List.map_cons]

@[simp] theorem retype_value (l : Literal) : (value l).retype = value l := by rw [retype]

@[simp] theorem retype_name (n : String) : (name n).retype = name n := by rw [retype]

@[simp] theorem retype_call (f : String) (args : List Expression) :
    (call f args).retype = call f (args.map retype) := by
  rw [retype, retypeAll_eq_map]

@[simp] theorem retype_operation (o : Operator) (operands : List Expression) (type : ValueType) :
    (operation o operands type).retype
      = operation o (operands.map retype) (o.typeOn (operands.map retype)) := by
  rw [retype, retypeAll_eq_map]

theorem nodes_retype (e : Expression) : e.retype.nodes = e.nodes.map retype := by
  induction e with
  | value l => simp
  | name n => simp
  | call f args ih =>
    rw [retype_call, nodes_call, nodes_call, List.map_append, flatMap_nodes_map ih,
      List.map_singleton, retype_call]
  | operation o operands type ih =>
    rw [retype_operation, nodes_operation, nodes_operation, List.map_append, flatMap_nodes_map ih,
      List.map_singleton, retype_operation]

theorem isTyped_retype (e : Expression) : e.retype.IsTyped := by
  cases e with
  | operation o operands type =>
    rw [retype_operation]
    -- one operand and two operands are typed, of other numbers nothing is asked
    rcases operands with _ | ⟨a, _ | ⟨b, _ | ⟨c, operands⟩⟩⟩
    · trivial
    · rfl
    · rfl
    · trivial
  | _ => simp [IsTyped]

theorem HasArity.retype {e : Expression} (h : e.HasArity) : e.retype.HasArity := by
  cases e with
  | operation o operands type =>
    rw [retype_operation]
    exact (List.length_map _).trans h
  | _ => simp [HasArity]

/-- An expression is printed without its types. -/
theorem tree_retype (e : Expression) (nested : Bool) : e.retype.tree nested = e.tree nested := by
  induction e generalizing nested with
  | value l => rw [retype_value]
  | name n => rw [retype_name]
  | call f args ih =>
    rw [retype_call, tree, tree, treesOf_eq_map, treesOf_eq_map, List.map_map]
    congr 1
    exact List.map_congr_left fun a ha => ih a ha false
  | operation o operands type ih =>
    have hoperands : treesOf true (operands.map Expression.retype) = treesOf true operands := by
      rw [treesOf_eq_map, treesOf_eq_map, List.map_map]
      exact List.map_congr_left fun a ha => ih a ha true
    rw [retype_operation, tree, tree, hoperands]

end Expression

/-! ### Statements and items -/

/-- A statement with its operations typed by their operands. -/
def StatementKind.retype : StatementKind → StatementKind
  | .result e => .result e.retype
  | .evaluate e => .evaluate e.retype
  | .branch e target otherwise => .branch e.retype target otherwise
  | .assign n e => .assign n e.retype
  | k => k

@[simp] theorem StatementKind.expression?_retype (k : StatementKind) :
    k.retype.expression? = k.expression?.map Expression.retype := by
  cases k <;> rfl

@[simp] theorem StatementKind.isExecutable_retype (k : StatementKind) :
    k.retype.isExecutable = k.isExecutable := by
  cases k <;> rfl

/-- A statement is printed without the types of its operations. -/
theorem StatementKind.tree?_retype (k : StatementKind) : k.retype.tree? = k.tree? := by
  cases k <;> simp [retype, tree?, Expression.tree_retype]

/-- A statement on its line with its operations typed by their operands. -/
def Statement.retype (s : Statement) : Statement := { s with kind := s.kind.retype }

theorem Statement.isDim_retype (s : Statement) (h : s.kind.isDim = false) :
    s.retype.kind.isDim = false := by
  obtain ⟨line, kind⟩ := s
  cases kind <;> first | rfl | cases h

theorem Statement.isTyped_retype (s : Statement) : s.retype.IsTyped := by
  intro e' he' n' hn'
  rw [retype, StatementKind.expression?_retype] at he'
  obtain ⟨e, -, rfl⟩ := Option.map_eq_some_iff.mp he'
  rw [Expression.nodes_retype] at hn'
  obtain ⟨n, -, rfl⟩ := List.mem_map.mp hn'
  exact n.isTyped_retype

theorem Statement.HasArity.retype {s : Statement} (h : s.HasArity) : s.retype.HasArity := by
  intro e' he' n' hn'
  rw [Statement.retype, StatementKind.expression?_retype] at he'
  obtain ⟨e, he, rfl⟩ := Option.map_eq_some_iff.mp he'
  rw [Expression.nodes_retype] at hn'
  obtain ⟨n, hn, rfl⟩ := List.mem_map.mp hn'
  exact (h e he n hn).retype

namespace Item

/-- An item with its operations typed by their operands. -/
def retype (i : Item) : Item := i.map id Statement.retype

@[simp] theorem line_retype (i : Item) : i.retype.line = i.line :=
  line_map (f := Statement.retype) (fun _ => rfl) i

/-- Statements form the same items, whatever their types. -/
theorem ofStatements_retype (ss : List Statement) :
    ofStatements (ss.map Statement.retype) = (ofStatements ss).map retype :=
  ofStatements_map (fun _ _ _ => rfl) Statement.isDim_retype ss

theorem stmt?_retype (i : Item) : i.retype.stmt? = i.stmt? := by
  cases i with
  | dims n names type => simp [retype, map, stmt?]
  | single s => exact s.kind.tree?_retype

theorem written_retype (followed : Bool) (i : Item) :
    i.retype.written followed = i.written followed := by
  cases i with
  | dims n names type => rfl
  | single s =>
    obtain ⟨n, kind⟩ := s
    cases kind <;> rfl

theorem opensWithComment_retype (n : UInt64) (items : List Item) :
    opensWithComment n (items.map retype) = opensWithComment n items := by
  rcases items with _ | ⟨i, rest⟩
  · rfl
  · change (i.retype).isCommentOn n = i.isCommentOn n
    cases i with
    | dims m names type => rfl
    | single s =>
      obtain ⟨m, kind⟩ := s
      cases kind <;> rfl

/-- Items stand on the same lines, whatever their types. -/
theorem lines_retype (items : List Item) : lines (items.map retype) = lines items := by
  induction items with
  | nil => rfl
  | cons i rest ih =>
    rw [List.map_cons, lines_cons, lines_cons, ih, line_retype, opensWithComment_retype,
      stmt?_retype, written_retype]

end Item

/-! ### Programs -/

/-- A function with its operations typed by their operands. -/
def Routine.retype (r : Routine) : Routine :=
  { r with statements := r.statements.map Statement.retype }

/-- A program with its operations typed by their operands. -/
def Program.retype (p : Program) : Program := { p with routines := p.routines.map Routine.retype }

namespace Routine

theorem tree_retype (r : Routine) : r.retype.tree = r.tree := by
  rw [tree, tree, retype, Item.ofStatements_retype, Item.lines_retype]

/-- A function takes up the same lines whatever the types of its operations. -/
theorem takenLines_retype (r : Routine) : r.retype.takenLines = r.takenLines :=
  takenLines_map (f := Statement.retype) rfl (fun _ _ _ => rfl)
    Statement.isDim_retype (fun s => s.kind.isExecutable_retype) fun _ => rfl

theorem nodes_retype (r : Routine) : r.retype.nodes = r.nodes.map Expression.retype := by
  rw [nodes, nodes, retype, List.flatMap_map, List.map_flatMap]
  refine List.flatMap_congr fun s _ => ?_
  rw [Statement.retype, StatementKind.expression?_retype]
  cases s.kind.expression? with
  | none => rfl
  | some e => simp [Expression.nodes_retype]

end Routine

theorem SymbolTable.declarations_retype (r : Routine) : declarations r.retype = declarations r := by
  rw [declarations, declarations, Routine.retype, List.filterMap_map]
  congr 1
  refine List.filterMap_congr fun s _ => ?_
  obtain ⟨line, kind⟩ := s
  cases kind <;> rfl

theorem SymbolTable.ofProgram_retype (p : Program) : ofProgram p.retype = ofProgram p :=
  ofProgram_mk_map (f := Routine.retype) (fun _ => rfl) (fun _ => rfl) declarations_retype
    p.headers p

namespace Program

/-- **A program is printed without the types of its operations.** -/
theorem tree_retype (p : Program) : p.retype.tree = p.tree := by
  rw [tree, tree, retype, List.map_map]
  congr 1
  exact List.map_congr_left fun r _ => r.tree_retype

theorem hasArity_and_isTyped_retype {p : Program}
    (h : ∀ r ∈ p.routines, ∀ s ∈ r.statements, s.HasArity) :
    ∀ r ∈ p.retype.routines, ∀ s ∈ r.statements, s.HasArity ∧ s.IsTyped := by
  intro r' hr' s' hs'
  obtain ⟨r, hr, rfl⟩ := List.mem_map.mp hr'
  obtain ⟨s, hs, rfl⟩ := List.mem_map.mp hs'
  exact ⟨(h r hr s hs).retype, s.isTyped_retype⟩

theorem checkLines_retype (p : Program) : p.retype.checkLines = p.checkLines :=
  checkLines_mk_map (f := Routine.retype) (fun _ => rfl) Routine.takenLines_retype p.headers p

theorem nodes_retype (p : Program) :
    p.retype.nodes = p.nodes.map fun n => (n.1, n.2.retype) := by
  rw [nodes, nodes, retype, List.flatMap_map, List.map_flatMap]
  refine List.flatMap_congr fun r _ => ?_
  rw [Routine.nodes_retype, List.map_map, List.map_map]
  rfl

theorem checkNames_retype (p : Program) (t : SymbolTable) :
    p.retype.checkNames t = p.checkNames t := by
  -- the check asks for names, callees and numbers of arguments, never for a type
  have huse : ∀ f e, t.checkUse f (Expression.retype e) = t.checkUse f e := by
    intro f e
    cases e with
    | value l => rw [Expression.retype_value]
    | name n => rw [Expression.retype_name]
    | call g args =>
      rw [Expression.retype_call]
      rfl
    | operation o operands type =>
      rw [Expression.retype_operation]
      rfl
  rw [checkNames, checkNames, visit_eq, visit_eq, nodes_retype, List.forM_map]
  exact forM_congr fun n _ => huse n.1 n.2

end Program

end ContractBasic
