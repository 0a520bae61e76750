/-
Both walks over the expressions of a program.

Names are checked by one walk and spelled anew by another.  Both take the nodes of a program in one
order: the first acts on every node up to the first on which it fails, the second asks for a spelling at
every name and every call and leaves all else as it is.

* `WalksOver` — what a failing action with a state does on nodes in turn
* `Respells` — what a respelling with a state does on nodes in turn
* `Program.masked` — a program without the names and the calls of its expressions
* `Rewrites` — a rewriting that takes a respelling over nodes and changes nothing else
* `Program.walks` — both walks over a program
-/
import ContractBasic.Proofs.Rename.Spelling

namespace ContractBasic

variable {σ ε : Type}

/-! ### Looking at nodes -/

/-- Whether an action passes on nodes one after the other, and the states before and after it. -/
inductive Passes (act : String → Expression → ExceptT ε (StateM σ) Unit) :
    σ → List (String × Expression) → σ → Prop where
  | nil (s : σ) : Passes act s [] s
  | cons {s s₁ s' : σ} {f : String} {n : Expression} {ns : List (String × Expression)}
      (hnode : (act f n).run.run s = (.ok (), s₁)) (hlater : Passes act s₁ ns s') :
      Passes act s ((f, n) :: ns) s'

/-- Whether an outcome is that of an action on nodes in turn: it passes on all of them, or it passes on
those before some node and fails on that, which is the last that it is asked for. -/
def WalksOver (act : String → Expression → ExceptT ε (StateM σ) Unit)
    (nodes : List (String × Expression)) (s : σ) (outcome : Except ε Unit × σ) : Prop :=
  (outcome.1 = .ok () ∧ Passes act s nodes outcome.2) ∨
    ∃ before f n after s₁ e, nodes = before ++ (f, n) :: after ∧ Passes act s before s₁ ∧
      (act f n).run.run s₁ = (.error e, outcome.2) ∧ outcome.1 = .error e

/-- An action on every member of a list is an action on its members in turn. -/
theorem walksOver_forM (act : String → Expression → ExceptT ε (StateM σ) Unit)
    (nodes : List (String × Expression)) (s : σ) :
    WalksOver act nodes s ((forM nodes fun n => act n.1 n.2).run.run s) := by
  induction nodes generalizing s with
  | nil => exact .inl ⟨rfl, .nil s⟩
  | cons n nodes ih =>
    obtain ⟨f, n⟩ := n
    rcases hnode : (act f n).run.run s with ⟨outcome, s₁⟩
    have hrun : (forM ((f, n) :: nodes) fun n => act n.1 n.2).run.run s =
        match outcome with
        | .error e => (.error e, s₁)
        | .ok () => (forM nodes fun n => act n.1 n.2).run.run s₁ := by
      rw [List.forM_cons]
      simp only [ExceptT.run_bind, StateT.run_bind, hnode]
      cases outcome <;> rfl
    rw [hrun]
    cases outcome with
    | error e => exact .inr ⟨[], f, n, nodes, s, e, rfl, .nil s, hnode, rfl⟩
    | ok u =>
      rcases ih s₁ with ⟨hok, hpass⟩ | ⟨before, g, m, after, s₂, e, rfl, hpass, hfails, herror⟩
      · exact .inl ⟨hok, .cons hnode hpass⟩
      · exact .inr ⟨(f, n) :: before, g, m, after, s₂, e, rfl, .cons hnode hpass, hfails, herror⟩

/-! ### Spelling nodes anew -/

/-- Whether nodes become others under a respelling that is asked at each name and each call in turn, and
at nothing else.  It is told the function and the old spelling, and of a call the arguments as they have
become; the node gets the new spelling, and the next one is spelled in the state that is left. -/
inductive Respells (r : Respelling (StateM σ)) :
    σ → List (String × Expression) → List (String × Expression) → σ → Prop where
  | nil (s : σ) : Respells r s [] [] s
  | value {s s' : σ} {f : String} {l : Literal} {ns ns' : List (String × Expression)}
      (hlater : Respells r s ns ns' s') :
      Respells r s ((f, .value l) :: ns) ((f, .value l) :: ns') s'
  | name {s s₁ s' : σ} {f n n' : String} {ns ns' : List (String × Expression)}
      (hname : (r.name f n).run s = (n', s₁)) (hlater : Respells r s₁ ns ns' s') :
      Respells r s ((f, .name n) :: ns) ((f, .name n') :: ns') s'
  | call {s s₁ s' : σ} {f g g' : String} {args args' : List Expression}
      {ns ns' : List (String × Expression)} (hcall : (r.call f g args').run s = (g', s₁))
      (hlater : Respells r s₁ ns ns' s') :
      Respells r s ((f, .call g args) :: ns) ((f, .call g' args') :: ns') s'
  | operation {s s' : σ} {f : String} {o : Operator} {operands operands' : List Expression}
      {type : ValueType} {ns ns' : List (String × Expression)} (hlater : Respells r s ns ns' s') :
      Respells r s ((f, .operation o operands type) :: ns)
        ((f, .operation o operands' type) :: ns') s'

theorem Respells.append {r : Respelling (StateM σ)} {s s₁ s₂ : σ}
    {ns ns' ms ms' : List (String × Expression)} (h : Respells r s ns ns' s₁)
    (h' : Respells r s₁ ms ms' s₂) : Respells r s (ns ++ ms) (ns' ++ ms') s₂ := by
  induction h with
  | nil s => exact h'
  | value hlater ih => exact .value (ih h')
  | name hname hlater ih => exact .name hname (ih h')
  | call hcall hlater ih => exact .call hcall (ih h')
  | operation hlater ih => exact .operation (ih h')

/-- Whether a rewriting of `a` takes a respelling over its nodes, whatever the state, and changes nothing
that a mask leaves. -/
def Rewrites {α β : Type} (r : Respelling (StateM σ)) (nodes : α → List (String × Expression))
    (mask : α → β) (a : α) (x : StateM σ α) : Prop :=
  ∀ s, Respells r s (nodes a) (nodes (x.run s).1) (x.run s).2 ∧ mask (x.run s).1 = mask a

namespace Rewrites

variable {r : Respelling (StateM σ)} {α β γ δ : Type} {nodes : α → List (String × Expression)}
  {mask : α → γ}

/-- What rewrites a part rewrites the whole, if there are no nodes outside the part. -/
theorem whole {a : α} {x : StateM σ α} (h : Rewrites r nodes mask a x)
    {nodes' : β → List (String × Expression)} {mask' : β → δ} (g : α → β)
    (hnodes : ∀ a, nodes' (g a) = nodes a)
    (hmask : ∀ a b, mask a = mask b → mask' (g a) = mask' (g b)) :
    Rewrites r nodes' mask' (g a) (do let b ← x; pure (g b)) := by
  intro s
  obtain ⟨hrespells, hkept⟩ := h s
  refine ⟨?_, hmask _ _ hkept⟩
  show Respells r s (nodes' (g a)) (nodes' (g (x.run s).1)) (x.run s).2
  rw [hnodes, hnodes]
  exact hrespells

/-- What rewrites the members of a list, one after the other, rewrites the list. -/
theorem mapM {f : α → StateM σ α} {l : List α} (h : ∀ a ∈ l, Rewrites r nodes mask a (f a)) :
    Rewrites r (·.flatMap nodes) (·.map mask) l (l.mapM f) := by
  intro s
  induction l generalizing s with
  | nil => exact ⟨.nil s, rfl⟩
  | cons a l ih =>
    obtain ⟨ha, hl⟩ := List.forall_mem_cons.mp h
    obtain ⟨hrespells, hkept⟩ := ha s
    -- the rest starts in the state that the first one leaves
    obtain ⟨hlater, hkeptLater⟩ := ih hl ((f a).run s).2
    have hrun : ((a :: l).mapM f).run s = (((f a).run s).1 :: ((l.mapM f).run ((f a).run s).2).1,
        ((l.mapM f).run ((f a).run s).2).2) := by
      rw [List.mapM_cons]
      rfl
    rw [hrun]
    refine ⟨?_, ?_⟩
    · simpa only [List.flatMap_cons] using hrespells.append hlater
    · exact congrArg₂ List.cons hkept hkeptLater

end Rewrites

/-! ### Expressions and programs -/

/-- An expression without its names and calls. -/
def Expression.masked (e : Expression) : Expression := e.spell (fun _ => "") fun _ => ""

/-- A statement without the names and calls of its expression. -/
def StatementKind.masked : StatementKind → StatementKind
  | .result e => .result e.masked
  | .evaluate e => .evaluate e.masked
  | .branch e target otherwise => .branch e.masked target otherwise
  | .assign n e => .assign n e.masked
  | .noOp => .noOp
  | .comment text => .comment text
  | .dim n type => .dim n type
  | .goto target => .goto target

/-- A statement on its line without the names and calls of its expression. -/
def Statement.masked (s : Statement) : Statement := { s with kind := s.kind.masked }

/-- A function without the names and calls of its expressions. -/
def Routine.masked (r : Routine) : Routine :=
  { r with statements := r.statements.map Statement.masked }

/-- A program without the names and calls of its expressions.  Everything else is there: functions,
parameters, declared variables and the names that are assigned to, literals, operators and types, lines
and jumps, comments. -/
def Program.masked (p : Program) : Program := { p with routines := p.routines.map Routine.masked }

variable (r : Respelling (StateM σ))

/-- The nodes of an expression in a function. -/
def Expression.nodesIn (f : String) (e : Expression) : List (String × Expression) :=
  e.nodes.map (f, ·)

/-- The nodes of a statement in a function. -/
def StatementKind.nodesIn (f : String) (k : StatementKind) : List (String × Expression) :=
  ((k.expression?.map Expression.nodes).getD []).map (f, ·)

theorem Expression.flatMap_nodesIn (f : String) (es : List Expression) :
    es.flatMap (nodesIn f) = (es.flatMap nodes).map (f, ·) :=
  List.map_flatMap.symm

theorem Expression.respellAll_eq_mapM (f : String) (es : List Expression) :
    respellAll r f es = es.mapM (respell r f) := by
  induction es with
  | nil => rfl
  | cons e es ih => rw [respellAll, ih, List.mapM_cons]

/-- **An expression is spelled anew node by node**, operands and arguments before the node that holds
them. -/
theorem Expression.rewrites_respell (f : String) (e : Expression) :
    Rewrites r (nodesIn f) masked e (e.respell r f) := by
  -- for every state at once, since each part starts in the state that the one before it leaves
  induction e with
  | value l => exact fun s => ⟨.value (.nil s), rfl⟩
  | name n => exact fun s => ⟨.name rfl (.nil _), rfl⟩
  | call g args ih =>
    intro s
    obtain ⟨hrespells, hkept⟩ := Rewrites.mapM ih s
    rcases hargs : (args.mapM (respell r f)).run s with ⟨args', s₁⟩
    -- the arguments run first, and the call is asked in the state behind them
    rcases hcall : (r.call f g args').run s₁ with ⟨g', s₂⟩
    have hrun : ((call g args).respell r f).run s = (call g' args', s₂) := by
      rw [respell, respellAll_eq_mapM, StateT.run_bind, hargs]
      exact congrArg (fun called => (call called.1 args', called.2)) hcall
    rw [hargs] at hrespells hkept
    rw [hrun]
    refine ⟨?_, ?_⟩
    · rw [nodesIn, nodesIn, nodes_call, nodes_call, List.map_append, List.map_append,
        ← flatMap_nodesIn, ← flatMap_nodesIn]
      exact hrespells.append (.call hcall (.nil s₂))
    · rw [masked, masked, spell_call, spell_call]
      exact congrArg _ hkept
  | operation o operands type ih =>
    intro s
    obtain ⟨hrespells, hkept⟩ := Rewrites.mapM ih s
    rcases hoperands : (operands.mapM (respell r f)).run s with ⟨operands', s₁⟩
    have hrun : ((operation o operands type).respell r f).run s
        = (operation o operands' type, s₁) := by
      rw [respell, respellAll_eq_mapM, StateT.run_bind, hoperands]
      rfl
    rw [hoperands] at hrespells hkept
    rw [hrun]
    refine ⟨?_, ?_⟩
    · rw [nodesIn, nodesIn, nodes_operation, nodes_operation, List.map_append, List.map_append,
        ← flatMap_nodesIn, ← flatMap_nodesIn]
      exact hrespells.append (.operation (.nil s₁))
    · rw [masked, masked, spell_operation, spell_operation]
      exact congrArg (operation o · type) hkept

/-- A statement is rewritten as its expression is. -/
theorem StatementKind.rewrites_mapExpression (f : String) (k : StatementKind) :
    Rewrites r (nodesIn f) masked k (k.mapExpression (Expression.respell r f)) := by
  have hwhole : ∀ (e : Expression) (g : Expression → StatementKind),
      (∀ e, nodesIn f (g e) = e.nodesIn f) →
      (∀ e e', e.masked = e'.masked → (g e).masked = (g e').masked) →
      Rewrites r (nodesIn f) masked (g e) (do let e ← e.respell r f; pure (g e)) :=
    fun e g hnodes hmask => (e.rewrites_respell r f).whole g hnodes hmask
  cases k with
  | result e => exact hwhole e result (fun _ => rfl) fun _ _ h => congrArg result h
  | evaluate e => exact hwhole e evaluate (fun _ => rfl) fun _ _ h => congrArg evaluate h
  | branch e target otherwise =>
    exact hwhole e (branch · target otherwise) (fun _ => rfl) fun _ _ h =>
      congrArg (branch · target otherwise) h
  | assign n e => exact hwhole e (assign n) (fun _ => rfl) fun _ _ h => congrArg (assign n) h
  | noOp | comment _ | dim _ _ | goto _ => exact fun s => ⟨.nil s, rfl⟩

namespace Program

/-- **A program is spelled anew node by node**, and nothing but the names and calls of its expressions
changes. -/
theorem rewrites_respell (p : Program) : Rewrites r nodes masked p (p.respell r) := by
  have hstatement : ∀ (f : String) (st : Statement),
      Rewrites r (fun st => st.kind.nodesIn f) Statement.masked st (do
        let kind ← st.kind.mapExpression (Expression.respell r f)
        pure { st with kind := kind }) := fun f st =>
    (st.kind.rewrites_mapExpression r f).whole (Statement.mk st.line) (fun _ => rfl)
      fun _ _ h => congrArg (Statement.mk st.line) h
  have hroutine : ∀ rt : Routine,
      Rewrites r (fun rt => rt.nodes.map (rt.name, ·)) Routine.masked rt (do
        let statements ← rt.statements.mapM fun st => do
          let kind ← st.kind.mapExpression (Expression.respell r rt.name)
          pure { st with kind := kind }
        pure { rt with statements := statements }) := fun rt =>
    (Rewrites.mapM fun st _ => hstatement rt.name st).whole
      (fun statements => { rt with statements := statements })
      (fun _ => List.map_flatMap) fun _ _ h => congrArg (fun l => { rt with statements := l }) h
  -- program, functions and statements are lists of parts; each level is the one below, walked in order
  exact (Rewrites.mapM fun rt _ => hroutine rt).whole (Program.mk p.headers) (fun _ => rfl)
    fun _ _ h => congrArg (Program.mk p.headers) h

/-- **Both walks take the nodes of a program in one order**: functions and statements in order, and
operands and arguments, left to right, before the node that holds them.  An action is done on node after
node with the name of the function, up to the first node on which it fails.  A respelling is asked once
for every name and every call, with the name that the function has in the program, and the program that
comes out differs in nothing but these. -/
theorem walks (p : Program) (act : String → Expression → ExceptT ε (StateM σ) Unit)
    (r : Respelling (StateM σ)) (s : σ) :
    p.visit act = (forM p.nodes fun n => act n.1 n.2) ∧
    WalksOver act p.nodes s ((p.visit act).run.run s) ∧
    Respells r s p.nodes ((p.respell r).run s).1.nodes ((p.respell r).run s).2 ∧
    ((p.respell r).run s).1.masked = p.masked := by
  refine ⟨visit_eq act p, ?_, rewrites_respell r p s⟩
  rw [visit_eq]
  exact walksOver_forM act p.nodes s

-- a respelling that records what it is asked for is asked neither for the function nor for the target
example :
    ((Program.respell (m := StateM (List (String × String)))
      ⟨fun f n => do modify (· ++ [(f, n)]); pure n, fun f g _ => do modify (· ++ [(f, g)]); pure g⟩
      ⟨[], [⟨"F", .uint64, [⟨"x", .uint64⟩],
        [⟨10, .assign "y" (.call "f" [.name "x",
          .operation (.bitwise .not) [.call "g" [.value (.uint64 1)]] .uint64])⟩], []⟩]⟩).run []).2
      = [("F", "x"), ("F", "g"), ("F", "f")] :=
  rfl

end Program

end ContractBasic
