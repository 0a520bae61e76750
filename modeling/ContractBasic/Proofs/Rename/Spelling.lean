/-
Programs spelled anew.

A renaming walks over a program twice, once for its expressions and once for its declarations and
the targets of its assignments.  Both walks together give every identifier a spelling and leave all
else as it is.

* `Spelling`, `Program.spell` — a program with a spelling for every identifier
* `Program.spell_spell`, `Program.spell_congr`, `Program.spell_eq_self` — spellings in a row, spellings
  that agree, and spellings that change nothing
* `Program.anonymous` — what is left of a program without its identifiers
* `Program.nodes_spell`, `Program.places_spell` — the nodes of a program spelled anew, and the names
  that it declares and assigns to
* `Program.rename_eq_spell` — a renaming spells a program anew
-/
import ContractBasic.Proofs.Program.Nodes
import ContractBasic.Rename.Renaming
import Mathlib.Data.List.Basic

namespace ContractBasic

/-! ### Expressions -/

namespace Expression

mutual

/-- An expression with its names and its calls spelled anew. -/
def spell (name call : String → String) : Expression → Expression
  | .value l => .value l
  | .name n => .name (name n)
  | .call f args => .call (call f) (spellAll name call args)
  | .operation o operands type => .operation o (spellAll name call operands) type

/-- Expressions with their names and their calls spelled anew. -/
def spellAll (name call : String → String) : List Expression → List Expression
  | [] => []
  | e :: es => spell name call e :: spellAll name call es

end

variable (name call : String → String)

theorem spellAll_eq_map (es : List Expression) :
    spellAll name call es = es.map (spell name call) := by
  induction es with
  | nil => rfl
  | cons e es ih => rw [spellAll, ih, List.map_cons]

@[simp] theorem spell_value (l : Literal) : (value l).spell name call = value l := by rw [spell]

@[simp] theorem spell_name (n : String) :
    (Expression.name n).spell name call = .name (name n) := by
  rw [spell]

@[simp] theorem spell_call (f : String) (args : List Expression) :
    (Expression.call f args).spell name call
      = .call (call f) (args.map (spell name call)) := by
  rw [spell, spellAll_eq_map]

@[simp] theorem spell_operation (o : Operator) (operands : List Expression) (type : ValueType) :
    (operation o operands type).spell name call
      = operation o (operands.map (spell name call)) type := by
  rw [spell, spellAll_eq_map]

/-- Of two spellings in a row, the second is a spelling of the first. -/
theorem spell_spell (name' call' : String → String) (e : Expression) :
    (e.spell name call).spell name' call' = e.spell (name' ∘ name) (call' ∘ call) := by
  induction e with
  | value l => simp
  | name n => simp
  | call f args ih => simpa using ih
  | operation o operands type ih => simpa using ih

/-- Spellings that agree on the names and the calls of an expression spell it alike. -/
theorem spell_congr {name call name' call' : String → String} {e : Expression}
    (hnames : ∀ n, .name n ∈ e.nodes → name n = name' n)
    (hcalls : ∀ f args, .call f args ∈ e.nodes → call f = call' f) :
    e.spell name call = e.spell name' call' := by
  -- the nodes of a member are nodes of the whole
  have hall : ∀ es : List Expression,
      (∀ e ∈ es, (∀ n, .name n ∈ e.nodes → name n = name' n) →
        (∀ f args, .call f args ∈ e.nodes → call f = call' f) →
        e.spell name call = e.spell name' call') →
      (∀ n, .name n ∈ es.flatMap nodes → name n = name' n) →
      (∀ f args, .call f args ∈ es.flatMap nodes → call f = call' f) →
      es.map (spell name call) = es.map (spell name' call') := by
    intro es ih hnames hcalls
    refine List.map_congr_left fun e he => ?_
    exact ih e he (fun n hn => hnames n (List.mem_flatMap.mpr ⟨e, he, hn⟩))
      fun f args hf => hcalls f args (List.mem_flatMap.mpr ⟨e, he, hf⟩)
  induction e with
  | value l => rw [spell_value, spell_value]
  | name n => rw [spell_name, spell_name, hnames n (mem_nodes_self _)]
  | call f args ih =>
    rw [spell_call, spell_call, hcalls f args (mem_nodes_self _)]
    rw [nodes_call] at hnames hcalls
    rw [hall args ih (fun n hn => hnames n (List.mem_append_left _ hn))
      fun f args hf => hcalls f args (List.mem_append_left _ hf)]
  | operation o operands type ih =>
    rw [nodes_operation] at hnames hcalls
    rw [spell_operation, spell_operation,
      hall operands ih (fun n hn => hnames n (List.mem_append_left _ hn))
        fun f args hf => hcalls f args (List.mem_append_left _ hf)]

/-- An expression with its own spellings is itself. -/
theorem spell_id (e : Expression) : e.spell id id = e := by
  have hall : ∀ es : List Expression, (∀ e ∈ es, e.spell id id = e) →
      es.map (spell id id) = es :=
    fun es ih => (List.map_congr_left ih).trans (List.map_id' es)
  induction e with
  | value l => rw [spell_value]
  | name n => rw [spell_name, id]
  | call f args ih => rw [spell_call, hall args ih, id]
  | operation o operands type ih => rw [spell_operation, hall operands ih]

theorem nodes_spell (e : Expression) :
    (e.spell name call).nodes = e.nodes.map (spell name call) := by
  induction e with
  | value l => simp
  | name n => simp
  | call f args ih =>
    rw [spell_call, nodes_call, nodes_call, List.map_append, flatMap_nodes_map ih,
      List.map_singleton, spell_call]
  | operation o operands type ih =>
    rw [spell_operation, nodes_operation, nodes_operation, List.map_append, flatMap_nodes_map ih,
      List.map_singleton, spell_operation]

end Expression

/-! ### Programs -/

/-- A statement with its identifiers spelled anew. -/
def StatementKind.spell (name call : String → String) : StatementKind → StatementKind
  | .result e => .result (e.spell name call)
  | .evaluate e => .evaluate (e.spell name call)
  | .branch e target otherwise => .branch (e.spell name call) target otherwise
  | .dim n type => .dim (name n) type
  | .assign n e => .assign (name n) (e.spell name call)
  | k => k

theorem StatementKind.spell_spell (name call name' call' : String → String) (k : StatementKind) :
    (k.spell name call).spell name' call' = k.spell (name' ∘ name) (call' ∘ call) := by
  cases k <;> simp [StatementKind.spell, Expression.spell_spell]

@[simp] theorem StatementKind.expression?_spell (name call : String → String) (k : StatementKind) :
    (k.spell name call).expression? = k.expression?.map (Expression.spell name call) := by
  cases k <;> rfl

/-- A statement on its line with its identifiers spelled anew. -/
def Statement.spell (name call : String → String) (s : Statement) : Statement :=
  { s with kind := s.kind.spell name call }

@[simp] theorem Statement.kind_spell (name call : String → String) (s : Statement) :
    (s.spell name call).kind = s.kind.spell name call := rfl

theorem Statement.spell_spell (name call name' call' : String → String) (s : Statement) :
    (s.spell name call).spell name' call' = s.spell (name' ∘ name) (call' ∘ call) := by
  rw [spell, spell, StatementKind.spell_spell]
  rfl

/-- Spellings: of the functions, and of the names and the calls inside a function. -/
structure Spelling where
  routine : String → String
  name : String → String → String
  call : String → String → String

/-- A spelling and then another, which finds the functions under their new names. -/
def Spelling.andThen (s s' : Spelling) : Spelling where
  routine := s'.routine ∘ s.routine
  name f := s'.name (s.routine f) ∘ s.name f
  call f := s'.call (s.routine f) ∘ s.call f

/-- A parameter of a function spelled anew. -/
def Param.spell (name : String → String) (p : Param) : Param := { p with name := name p.name }

/-- A function with its identifiers spelled anew. -/
def Routine.spell (s : Spelling) (r : Routine) : Routine :=
  { r with
    name := s.routine r.name
    params := r.params.map (·.spell (s.name r.name))
    statements := r.statements.map (·.spell (s.name r.name) (s.call r.name)) }

namespace Program

/-- A program with its identifiers spelled anew. -/
def spell (s : Spelling) (p : Program) : Program := { p with routines := p.routines.map (·.spell s) }

/-- Of two spellings in a row, the second is a spelling of the first. -/
theorem spell_spell (s s' : Spelling) (p : Program) :
    (p.spell s).spell s' = p.spell (s.andThen s') := by
  simp [spell, Routine.spell, Param.spell, Statement.spell_spell, Spelling.andThen,
    Function.comp_def]

/-- What is left of a program without its identifiers. -/
def anonymous (p : Program) : Program := p.spell ⟨fun _ => "", fun _ _ => "", fun _ _ => ""⟩

/-- A program spelled anew differs in nothing but its identifiers. -/
theorem anonymous_spell (s : Spelling) (p : Program) : (p.spell s).anonymous = p.anonymous := by
  rw [anonymous, spell_spell]
  rfl

end Program

theorem SymbolTable.declarations_spell (s : Spelling) (r : Routine) :
    declarations (r.spell s) = (declarations r).map fun d => (s.name r.name d.1, d.2) := by
  rw [declarations, declarations, Routine.spell, List.map_append, List.map_map, List.map_map,
    List.filterMap_map, List.map_filterMap]
  congr 1
  refine List.filterMap_congr fun st _ => ?_
  obtain ⟨line, kind⟩ := st
  cases kind <;> rfl

theorem Routine.nodes_spell (s : Spelling) (r : Routine) :
    (r.spell s).nodes = r.nodes.map (Expression.spell (s.name r.name) (s.call r.name)) := by
  rw [nodes, nodes, spell, List.flatMap_map, List.map_flatMap]
  refine List.flatMap_congr fun st _ => ?_
  rw [Statement.kind_spell, StatementKind.expression?_spell]
  cases st.kind.expression? with
  | none => rfl
  | some e => simp [Expression.nodes_spell]

/-- The nodes of a program spelled anew are its nodes, each spelled anew. -/
theorem Program.nodes_spell (s : Spelling) (p : Program) :
    (p.spell s).nodes = p.nodes.map fun n =>
      (s.routine n.1, n.2.spell (s.name n.1) (s.call n.1)) := by
  rw [nodes, nodes, spell, List.flatMap_map, List.map_flatMap]
  refine List.flatMap_congr fun r _ => ?_
  rw [Routine.nodes_spell, List.map_map, List.map_map]
  rfl

/-- The names that a function assigns to, in order. -/
def Routine.targets (r : Routine) : List String :=
  r.statements.filterMap fun st =>
    match st.kind with
    | .assign n _ => some n
    | _ => none

/-- The names that a program assigns to, each with the name of its function. -/
def Program.targets (p : Program) : List (String × String) :=
  p.routines.flatMap fun r => r.targets.map (r.name, ·)

theorem Routine.targets_spell (s : Spelling) (r : Routine) :
    (r.spell s).targets = r.targets.map (s.name r.name) := by
  rw [targets, targets, spell, List.filterMap_map, List.map_filterMap]
  refine List.filterMap_congr fun st _ => ?_
  obtain ⟨line, kind⟩ := st
  cases kind <;> rfl

theorem Program.targets_spell (s : Spelling) (p : Program) :
    (p.spell s).targets = p.targets.map fun a => (s.routine a.1, s.name a.1 a.2) := by
  rw [targets, targets, spell, List.flatMap_map, List.map_flatMap]
  refine List.flatMap_congr fun r _ => ?_
  rw [Routine.targets_spell, List.map_map, List.map_map]
  rfl

/-- The names of values in a program: those that its functions declare and those that are assigned to,
each with the name of its function. -/
def Program.places (p : Program) : List (String × String) :=
  p.routines.flatMap (fun r => (SymbolTable.declarations r).map fun d => (r.name, d.1)) ++ p.targets

theorem Program.places_spell (s : Spelling) (p : Program) :
    (p.spell s).places = p.places.map fun a => (s.routine a.1, s.name a.1 a.2) := by
  rw [places, places, List.map_append, targets_spell, spell, List.flatMap_map, List.map_flatMap]
  congr 1
  refine List.flatMap_congr fun r _ => ?_
  rw [SymbolTable.declarations_spell, List.map_map, List.map_map]
  rfl

/-! ### Spellings that agree -/

theorem StatementKind.spell_congr {name call name' call' : String → String} {k : StatementKind}
    (htarget : ∀ n type, k = .dim n type → name n = name' n)
    (hassign : ∀ n e, k = .assign n e → name n = name' n)
    (hnames : ∀ e ∈ k.expression?, ∀ n, .name n ∈ e.nodes → name n = name' n)
    (hcalls : ∀ e ∈ k.expression?, ∀ f args, .call f args ∈ e.nodes → call f = call' f) :
    k.spell name call = k.spell name' call' := by
  have hexpression : ∀ e ∈ k.expression?, e.spell name call = e.spell name' call' := fun e he =>
    Expression.spell_congr (hnames e he) (hcalls e he)
  cases k with
  | noOp | comment _ | goto _ => rfl
  | result e | evaluate e | branch e _ _ => rw [spell, spell, hexpression e rfl]
  | dim n type => rw [spell, spell, htarget n type rfl]
  | assign n e => rw [spell, spell, hassign n e rfl, hexpression e rfl]

/-- Spellings that agree on the identifiers of a function spell it alike. -/
theorem Routine.spell_congr {s s' : Spelling} {r : Routine}
    (hroutine : s.routine r.name = s'.routine r.name)
    (hdeclared : ∀ d ∈ SymbolTable.declarations r, s.name r.name d.1 = s'.name r.name d.1)
    (htargets : ∀ n ∈ r.targets, s.name r.name n = s'.name r.name n)
    (hnames : ∀ n, .name n ∈ r.nodes → s.name r.name n = s'.name r.name n)
    (hcalls : ∀ f args, .call f args ∈ r.nodes → s.call r.name f = s'.call r.name f) :
    r.spell s = r.spell s' := by
  have hparams : r.params.map (·.spell (s.name r.name)) = r.params.map (·.spell (s'.name r.name)) := by
    refine List.map_congr_left fun x hx => ?_
    rw [Param.spell, Param.spell, hdeclared (x.name, .param, x.type)
      (List.mem_append_left _ (List.mem_map_of_mem hx))]
  -- each identifier of a statement is among those that the spellings agree on
  have hstatements : r.statements.map (·.spell (s.name r.name) (s.call r.name))
      = r.statements.map (·.spell (s'.name r.name) (s'.call r.name)) := by
    refine List.map_congr_left fun st hst => ?_
    rw [Statement.spell, Statement.spell, StatementKind.spell_congr]
    · intro n type hk
      exact hdeclared (n, .var, type)
        (List.mem_append_right _ (List.mem_filterMap.mpr ⟨st, hst, by rw [hk]⟩))
    · intro n e hk
      exact htargets n (List.mem_filterMap.mpr ⟨st, hst, by rw [hk]⟩)
    · exact fun e he n hn => hnames n (mem_nodes.mpr ⟨st, hst, e, he, hn⟩)
    · exact fun e he f args hf => hcalls f args (mem_nodes.mpr ⟨st, hst, e, he, hf⟩)
  rw [spell, spell, hroutine, hparams, hstatements]

namespace Program

/-- Spellings that agree on the identifiers of a program spell it alike. -/
theorem spell_congr {s s' : Spelling} {p : Program}
    (hroutines : ∀ r ∈ p.routines, s.routine r.name = s'.routine r.name)
    (hplaces : ∀ a ∈ p.places, s.name a.1 a.2 = s'.name a.1 a.2)
    (hnames : ∀ f n, (f, .name n) ∈ p.nodes → s.name f n = s'.name f n)
    (hcalls : ∀ f n args, (f, .call n args) ∈ p.nodes → s.call f n = s'.call f n) :
    p.spell s = p.spell s' := by
  have hspell : p.routines.map (·.spell s) = p.routines.map (·.spell s') := by
    refine List.map_congr_left fun r hr => ?_
    refine Routine.spell_congr (hroutines r hr) ?_ ?_ ?_ ?_
    · exact fun d hd => hplaces (r.name, d.1)
        (List.mem_append_left _ (List.mem_flatMap.mpr ⟨r, hr, List.mem_map_of_mem hd⟩))
    · exact fun n hn => hplaces (r.name, n)
        (List.mem_append_right _ (List.mem_flatMap.mpr ⟨r, hr, List.mem_map_of_mem hn⟩))
    · exact fun n hn => hnames r.name n (mem_nodes.mpr ⟨r, hr, rfl, hn⟩)
    · exact fun n args hn => hcalls r.name n args (mem_nodes.mpr ⟨r, hr, rfl, hn⟩)
  rw [spell, spell, hspell]

/-- A program with its own spellings is itself. -/
theorem spell_id (p : Program) : p.spell ⟨id, fun _ => id, fun _ => id⟩ = p := by
  have hkind : ∀ k : StatementKind, k.spell id id = k := by
    intro k
    cases k <;> simp [StatementKind.spell, Expression.spell_id]
  simp [spell, Routine.spell, Param.spell, Statement.spell, hkind]

/-- A program whose identifiers keep their spellings stays as it is. -/
theorem spell_eq_self {s : Spelling} {p : Program}
    (hroutines : ∀ r ∈ p.routines, s.routine r.name = r.name)
    (hplaces : ∀ a ∈ p.places, s.name a.1 a.2 = a.2)
    (hnames : ∀ f n, (f, .name n) ∈ p.nodes → s.name f n = n)
    (hcalls : ∀ f n args, (f, .call n args) ∈ p.nodes → s.call f n = n) : p.spell s = p :=
  (spell_congr hroutines hplaces hnames hcalls).trans p.spell_id

end Program

/-! ### Renamings -/

namespace Renaming

variable (r : Renaming) (t : SymbolTable)

/-- The new name of a declaration: its short name, if it has one. -/
def newName (s : Symbol) : String := (r.short? s).getD s.name

/-- The spellings of a renaming, where identifiers mean what a table says. -/
def spelling : Spelling where
  routine f := r.newName (.global f)
  name := r.spellName t
  call := r.spellCall t

theorem respell_eq_spell (scope : String) (e : Expression) :
    e.respell (r.respelling t) scope
      = pure (e.spell (r.spellName t scope) (r.spellCall t scope)) := by
  -- operands and arguments are walked by a function of their own, so lists are settled first
  have hall : ∀ es : List Expression,
      (∀ e ∈ es, e.respell (r.respelling t) scope
        = pure (e.spell (r.spellName t scope) (r.spellCall t scope))) →
      Expression.respellAll (r.respelling t) scope es
        = pure (es.map (Expression.spell (r.spellName t scope) (r.spellCall t scope))) := by
    intro es ih
    induction es with
    | nil => rfl
    | cons e es ihs =>
      rw [Expression.respellAll, ih e List.mem_cons_self,
        ihs fun e he => ih e (List.mem_cons_of_mem _ he)]
      rfl
  induction e with
  | value l =>
    rw [Expression.respell, Expression.spell_value]
  | name n =>
    rw [Expression.respell, Expression.spell_name]
    rfl
  | call f args ih =>
    rw [Expression.respell, hall args ih, Expression.spell_call]
    rfl
  | operation o operands type ih =>
    rw [Expression.respell, hall operands ih, Expression.spell_operation]
    rfl

end Renaming

/-- A renaming spells a program anew. -/
theorem Program.rename_eq_spell (r : Renaming) (t : SymbolTable) (p : Program) :
    p.rename r t = p.spell (r.spelling t) := by
  have hkind : ∀ (f : String) (k : StatementKind),
      StatementKind.mapTarget (r.spellName t f)
          (k.mapExpression (m := Id) (Expression.respell (r.respelling t) f)).run
        = k.spell (r.spellName t f) (r.spellCall t f) := by
    intro f k
    cases k <;> simp [StatementKind.mapExpression, Renaming.respell_eq_spell,
      StatementKind.mapTarget, StatementKind.spell]
  simp [rename, respell, Renaming.routine, hkind, spell, Routine.spell, Param.spell,
    Statement.spell, Renaming.spelling, Renaming.newName, Symbol.name]

end ContractBasic
