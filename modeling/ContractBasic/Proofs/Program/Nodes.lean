/-
The nodes of expressions.

Functions on expressions come in pairs, one for an expression and one for a list of them.  Here the
second of each pair is seen to be the first applied to every member, and expressions get an
induction in which operands and arguments are dealt with as lists.

* `Expression.induct` — the induction
* `Expression.nodes`, `Program.nodes` — the nodes in the order in which walks take them
* `Program.visit_eq` — a walk is its action on every node in turn
-/
import ContractBasic.Program.Traverse

namespace ContractBasic

/-! ### Actions on lists -/

theorem forM_flatMap {m : Type → Type} [Monad m] [LawfulMonad m] {α β : Type} (f : α → List β)
    (act : β → m Unit) (l : List α) : forM (l.flatMap f) act = forM l fun a => forM (f a) act := by
  induction l with
  | nil => rfl
  | cons a l ih => rw [List.flatMap_cons, List.forM_append, ih, List.forM_cons]

theorem forM_congr {m : Type → Type} [Monad m] {α : Type} {f g : α → m Unit} {l : List α}
    (h : ∀ a ∈ l, f a = g a) :
    forM l f = forM l g := by
  induction l with
  | nil => rfl
  | cons a l ih =>
    rw [List.forM_cons, List.forM_cons, h a List.mem_cons_self,
      ih fun b hb => h b (List.mem_cons_of_mem _ hb)]

/-- Acting on images is acting on what they are images of, if the actions agree. -/
theorem forM_map_congr {m : Type → Type} [Monad m] [LawfulMonad m] {α β : Type} {f : α → β}
    {act : β → m Unit} {act' : α → m Unit} {l : List α} (h : ∀ a ∈ l, act (f a) = act' a) :
    (l.map f).forM act = l.forM act' := by
  rw [List.forM_eq_forM, List.forM_eq_forM, List.forM_map]
  exact forM_congr h

/-- A check of every member passes if it passes for each. -/
theorem forM_eq_ok {ε α : Type} {check : α → Except ε Unit} {l : List α} :
    forM l check = .ok () ↔ ∀ a ∈ l, check a = .ok () := by
  induction l with
  | nil => simp [pure, Except.pure]
  | cons a l ih =>
    rw [List.forM_cons, List.forall_mem_cons, ← ih]
    cases check a with
    | error e => simp [bind, Except.bind]
    | ok u => simp [bind, Except.bind]

/-- A check of every member fails as it does at one of them, all before which pass. -/
theorem forM_eq_error {ε α : Type} {check : α → Except ε Unit} {l : List α} {e : ε} :
    forM l check = .error e ↔ ∃ before a after, l = before ++ a :: after ∧
      (∀ b ∈ before, check b = .ok ()) ∧ check a = .error e := by
  induction l with
  | nil => simp [pure, Except.pure]
  | cons a l ih =>
    rw [List.forM_cons]
    cases ha : check a with
    | error e' =>
      -- the walk ends here, so nothing can stand before what fails
      constructor
      · intro h
        cases h
        exact ⟨[], a, l, rfl, nofun, ha⟩
      · rintro ⟨before, b, after, hcut, hpass, hfails⟩
        cases before with
        | nil =>
          cases hcut
          rw [ha] at hfails
          exact hfails
        | cons c before =>
          cases hcut
          have hpassed := hpass a List.mem_cons_self
          rw [ha] at hpassed
          cases hpassed
    | ok u =>
      show forM l check = .error e ↔ _
      rw [ih]
      constructor
      · rintro ⟨before, b, after, rfl, hpass, hfails⟩
        exact ⟨a :: before, b, after, rfl, List.forall_mem_cons.mpr ⟨ha, hpass⟩, hfails⟩
      · rintro ⟨before, b, after, hcut, hpass, hfails⟩
        cases before with
        | nil =>
          cases hcut
          rw [ha] at hfails
          cases hfails
        | cons c before =>
          cases hcut
          exact ⟨before, b, after, rfl, (List.forall_mem_cons.mp hpass).2, hfails⟩

namespace Expression

/-- Induction on expressions, with the members of a list of operands or arguments at once. -/
@[elab_as_elim, induction_eliminator]
theorem induct {motive : Expression → Prop} (value : ∀ l, motive (.value l))
    (name : ∀ n, motive (.name n))
    (call : ∀ f args, (∀ a ∈ args, motive a) → motive (.call f args))
    (operation : ∀ o operands type, (∀ a ∈ operands, motive a) →
      motive (.operation o operands type)) : ∀ e, motive e
  | .value l => value l
  | .name n => name n
  | .call f args => call f args fun a _ => induct value name call operation a
  | .operation o operands type =>
    operation o operands type fun a _ => induct value name call operation a

/-! ### Nodes -/

mutual

/-- The nodes of an expression, operands and arguments before the node that holds them. -/
def nodes : Expression → List Expression
  | .value l => [.value l]
  | .name n => [.name n]
  | .call f args => nodesOf args ++ [.call f args]
  | .operation o operands type => nodesOf operands ++ [.operation o operands type]

/-- The nodes of several expressions. -/
def nodesOf : List Expression → List Expression
  | [] => []
  | e :: es => nodes e ++ nodesOf es

end

theorem nodesOf_eq_flatMap (es : List Expression) : nodesOf es = es.flatMap nodes := by
  induction es with
  | nil => rfl
  | cons e es ih => rw [nodesOf, ih, List.flatMap_cons]

@[simp] theorem nodes_value (l : Literal) : (value l).nodes = [value l] := by rw [nodes]

@[simp] theorem nodes_name (n : String) : (name n).nodes = [name n] := by rw [nodes]

@[simp] theorem nodes_call (f : String) (args : List Expression) :
    (call f args).nodes = args.flatMap nodes ++ [call f args] := by
  rw [nodes, nodesOf_eq_flatMap]

@[simp] theorem nodes_operation (o : Operator) (operands : List Expression) (type : ValueType) :
    (operation o operands type).nodes
      = operands.flatMap nodes ++ [operation o operands type] := by
  rw [nodes, nodesOf_eq_flatMap]

/-- An expression is a node of itself, the last one. -/
theorem mem_nodes_self (e : Expression) : e ∈ e.nodes := by
  cases e <;> simp

/-- The nodes of replaced expressions are their nodes replaced, if this is so for each of them. -/
theorem flatMap_nodes_map {f : Expression → Expression} {es : List Expression}
    (h : ∀ e ∈ es, (f e).nodes = e.nodes.map f) :
    (es.map f).flatMap nodes = (es.flatMap nodes).map f := by
  rw [List.flatMap_map, List.map_flatMap, List.flatMap_def, List.flatMap_def,
    List.map_congr_left h]

/-! ### Walks -/

section Walks

variable {m : Type → Type} [Monad m]

theorem visitAll_eq (act : Expression → m Unit) (es : List Expression) :
    visitAll act es = forM es (visit act) := by
  induction es with
  | nil => rw [visitAll, List.forM_nil]
  | cons e es ih => rw [visitAll, ih, List.forM_cons]

/-- A walk over an expression is its action on every node in turn. -/
theorem visit_eq [LawfulMonad m] (act : Expression → m Unit) (e : Expression) :
    e.visit act = forM e.nodes act := by
  have hone : ∀ e : Expression, forM [e] act = act e := by
    intro e
    simp [List.forM_cons]
  induction e with
  | value l => rw [visit, nodes_value, hone]
  | name n => rw [visit, nodes_name, hone]
  | call f args ih =>
    rw [visit, visitAll_eq, nodes_call, List.forM_append, forM_flatMap, hone, forM_congr ih]
  | operation o operands type ih =>
    rw [visit, visitAll_eq, nodes_operation, List.forM_append, forM_flatMap, hone, forM_congr ih]

end Walks

end Expression

/-! ### Programs -/

/-- The nodes of the expressions of a function, statement by statement. -/
def Routine.nodes (r : Routine) : List Expression :=
  r.statements.flatMap fun s => (s.kind.expression?.map Expression.nodes).getD []

/-- The nodes of the expressions of a program, each with the name of its function. -/
def Program.nodes (p : Program) : List (String × Expression) :=
  p.routines.flatMap fun r => r.nodes.map (r.name, ·)

theorem Routine.mem_nodes {r : Routine} {n : Expression} :
    n ∈ r.nodes ↔ ∃ s ∈ r.statements, ∃ e ∈ s.kind.expression?, n ∈ e.nodes := by
  simp only [nodes, List.mem_flatMap]
  refine exists_congr fun s => and_congr_right fun _ => ?_
  cases s.kind.expression? <;> simp

theorem Program.mem_nodes {p : Program} {f : String} {n : Expression} :
    (f, n) ∈ p.nodes ↔ ∃ r ∈ p.routines, r.name = f ∧ n ∈ r.nodes := by
  simp only [nodes, List.mem_flatMap, List.mem_map, Prod.mk.injEq]
  constructor
  · rintro ⟨r, hr, n', hn, rfl, rfl⟩
    exact ⟨r, hr, rfl, hn⟩
  · rintro ⟨r, hr, rfl, hn⟩
    exact ⟨r, hr, n, hn, rfl, rfl⟩

/-- A walk over a program is its action on every node in turn. -/
theorem Program.visit_eq {m : Type → Type} [Monad m] [LawfulMonad m]
    (act : String → Expression → m Unit) (p : Program) :
    p.visit act = forM p.nodes fun n => act n.1 n.2 := by
  rw [nodes, forM_flatMap, visit, List.forM_eq_forM]
  refine forM_congr fun r _ => ?_
  rw [List.forM_map, Routine.nodes, forM_flatMap, List.forM_eq_forM]
  refine forM_congr fun s _ => ?_
  cases s.kind.expression? with
  | none => rfl
  | some e => exact Expression.visit_eq _ e

end ContractBasic
