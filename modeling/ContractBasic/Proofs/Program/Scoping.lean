/-
Names in expressions and what they may be used for.

What a name means is said here by the program alone: the last parameter or variable of that name in a
function of this name, or else the last function of that name, or else the native.  The check of names
goes by this meaning, wherever the declaration stands, and reports the first node that breaks the rule.

* `Program.meaning?`, `Program.callMeaning?` — what a name and what a call mean in a function
* `Program.Permits`, `Program.Offends` — the rule for a node, and what is reported where it is broken
* `Program.resolve?_ofProgram` — the table of a program finds what names mean
* `Program.checkNames_ofProgram` — the check decides the rule and reports the first offence
-/
import ContractBasic.Proofs.Program.Names
import ContractBasic.Proofs.SymbolTable

namespace ContractBasic

/-! ### What names mean -/

/-- The declarations of a name inside a function, parameters before variables. -/
def Routine.declarationsOf (r : Routine) (n : String) : List (SymbolKind × ValueType) :=
  (r.params.filter (·.name = n)).map (fun x => (.param, x.type)) ++
    r.statements.filterMap fun s =>
      match s.kind with
      | .dim m type => if m = n then some (.var, type) else none
      | _ => none

namespace Program

/-- The last declaration of a name inside functions of a name. -/
def localMeaning? (p : Program) (f n : String) : Option (SymbolKind × ValueType) :=
  ((p.routines.filter (·.name = f)).flatMap (·.declarationsOf n)).getLast?

/-- The last function of a name, or else the native. -/
def globalMeaning? (p : Program) (n : String) : Option (SymbolKind × ValueType) :=
  match (p.routines.filter (·.name = n)).getLast? with
  | some r => some (.routine, r.returnType)
  | none => (Native.find? n).map fun x => (.native, x.returns.getD .unknown)

/-- What a name means in a function. -/
def meaning? (p : Program) (f n : String) : Option (SymbolKind × ValueType) :=
  (p.localMeaning? f n).or (p.globalMeaning? n)

/-- What the name of a call means in a function: what it means in capitals if it means nothing. -/
def callMeaning? (p : Program) (f n : String) : Option (SymbolKind × ValueType) :=
  (p.meaning? f n).or (p.meaning? f (Text.upcase n))

/-- Whether a node of an expression in a function keeps to the rule: calls mean functions or natives,
and bare names mean parameters or variables. -/
def Permits (p : Program) (f : String) : Expression → Prop
  | .call n _ => ∃ d ∈ p.callMeaning? f n, d.1 = .routine ∨ d.1 = .native
  | .name n => ∃ d ∈ p.meaning? f n, d.1 = .param ∨ d.1 = .var
  | .value _ | .operation _ _ _ => True

/-- What is reported of a node that breaks the rule. -/
inductive Offends (p : Program) (f : String) : Expression → Error → Prop where
  | lostCall {n : String} {args : List Expression} (h : p.callMeaning? f n = none) :
      Offends p f (.call n args) (.notFound .call n)
  | calledValue {n : String} {args : List Expression} {kind : SymbolKind} {type : ValueType}
      (h : p.callMeaning? f n = some (kind, type)) (hkind : kind = .param ∨ kind = .var) :
      Offends p f (.call n args) (.misused .call kind n)
  | lostName {n : String} (h : p.meaning? f n = none) : Offends p f (.name n) (.notFound .value n)
  | bareFunction {n : String} {kind : SymbolKind} {type : ValueType}
      (h : p.meaning? f n = some (kind, type)) (hkind : kind = .routine ∨ kind = .native) :
      Offends p f (.name n) (.misused .value kind n)

/-! ### What the table finds -/

theorem filter_declarations (r : Routine) (n : String) :
    (SymbolTable.declarations r).filter (·.1 = n) = (r.declarationsOf n).map (n, ·) := by
  rw [SymbolTable.declarations, List.filter_append, Routine.declarationsOf, List.map_append]
  congr 1
  · rw [List.filter_map, List.map_map]
    refine List.map_congr_left fun x hx => ?_
    have hname : x.name = n := of_decide_eq_true (List.mem_filter.mp hx).2
    rw [← hname]
    rfl
  · rw [List.filter_filterMap, List.map_filterMap]
    refine List.filterMap_congr fun s _ => ?_
    cases s.kind with
    | dim m type =>
      by_cases hm : m = n <;> simp [hm]
    | _ => rfl

/-- What a function declares under a name inside functions of a name. -/
theorem filter_declared_routine (r : Routine) (f n : String) :
    r.declared.filter (·.1 = .inside f n)
      = if r.name = f then (r.declarationsOf n).map (.inside f n, ·) else [] := by
  rw [Routine.declared, List.filter_map]
  by_cases hf : r.name = f
  · have hsame : (SymbolTable.declarations r).filter
        ((fun d : Declaration => decide (d.1 = .inside f n)) ∘ fun d => (.inside r.name d.1, d.2))
        = (SymbolTable.declarations r).filter (·.1 = n) := by
      refine List.filter_congr fun d _ => ?_
      simp [hf]
    rw [hsame, filter_declarations, if_pos hf, List.map_map, hf]
    rfl
  · rw [if_neg hf, List.map_eq_nil_iff, List.filter_eq_nil_iff]
    intro d _
    simp [hf]

theorem filter_declared_inside (p : Program) (f n : String) :
    p.declared.filter (·.1 = .inside f n)
      = ((p.routines.filter (·.name = f)).flatMap (·.declarationsOf n)).map (.inside f n, ·) := by
  -- natives and functions are declared globally, so only what is declared in functions is left
  have hnatives : Native.declared.filter (·.1 = .inside f n) = [] := by
    rw [Native.declared, List.filter_map, List.map_eq_nil_iff, List.filter_eq_nil_iff]
    simp
  have hroutines : (p.routines.map fun r =>
      ((.global r.name, .routine, r.returnType) : Declaration)).filter (·.1 = .inside f n) = [] := by
    rw [List.filter_map, List.map_eq_nil_iff, List.filter_eq_nil_iff]
    simp
  rw [declared, List.filter_append, List.filter_append, hnatives, hroutines, List.nil_append,
    List.nil_append, List.filter_flatMap, List.map_flatMap]
  simp only [filter_declared_routine]
  induction p.routines with
  | nil => rfl
  | cons r rs ih =>
    rw [List.flatMap_cons, List.filter_cons, ih]
    by_cases hr : r.name = f <;> simp [hr]

theorem filter_declared_global (p : Program) (n : String) :
    p.declared.filter (·.1 = .global n) = Native.declared.filter (·.1 = .global n) ++
      (p.routines.filter (·.name = n)).map fun r => (.global n, .routine, r.returnType) := by
  have hlocals : (p.routines.flatMap Routine.declared).filter (·.1 = .global n) = [] := by
    rw [List.filter_flatMap, List.flatMap_eq_nil_iff]
    intro r _
    rw [Routine.declared, List.filter_map, List.map_eq_nil_iff, List.filter_eq_nil_iff]
    simp
  rw [declared, List.filter_append, List.filter_append, hlocals, List.append_nil, List.filter_map]
  congr 1
  have hsame : p.routines.filter ((fun d : Declaration => decide (d.1 = .global n)) ∘
      fun r => (.global r.name, .routine, r.returnType)) = p.routines.filter (·.name = n) := by
    refine List.filter_congr fun r _ => ?_
    simp
  rw [hsame]
  refine List.map_congr_left fun r hr => ?_
  rw [of_decide_eq_true (List.mem_filter.mp hr).2]

theorem lookup_declared_inside (p : Program) (f n : String) :
    p.declared.reverse.lookup (.inside f n) = p.localMeaning? f n := by
  rw [lookup_reverse, filter_declared_inside, List.getLast?_map, Option.map_map, localMeaning?]
  exact Option.map_id'

theorem lookup_declared_global (p : Program) (n : String) :
    p.declared.reverse.lookup (.global n) = p.globalMeaning? n := by
  rw [lookup_reverse, filter_declared_global, List.getLast?_append, List.getLast?_map, globalMeaning?]
  cases (p.routines.filter (·.name = n)).getLast? with
  | some r => rfl
  | none =>
    rw [Option.map_none, Option.none_or, ← lookup_reverse, Native.lookup_declared]

/-- The table of a program finds what a name means. -/
theorem resolve?_ofProgram (p : Program) (f n : String) :
    ((SymbolTable.ofProgram p).resolve? f n).map (fun e => (e.2.kind, e.2.type))
      = p.meaning? f n := by
  rw [SymbolTable.resolve?, SymbolTable.get?_ofProgram, SymbolTable.get?_ofProgram,
    lookup_declared_inside, lookup_declared_global, meaning?]
  cases p.localMeaning? f n with
  | some d => rfl
  | none =>
    cases p.globalMeaning? n <;> rfl

/-- The table of a program finds what the name of a call means. -/
theorem resolveCall?_ofProgram (p : Program) (f n : String) :
    ((SymbolTable.ofProgram p).resolveCall? f n).map (fun e => (e.2.kind, e.2.type))
      = p.callMeaning? f n := by
  rw [SymbolTable.resolveCall?, Option.map_or, resolve?_ofProgram, resolve?_ofProgram, callMeaning?]

/-! ### The check of a node -/

theorem checkUse_eq_ok {p : Program} {f : String} {e : Expression} :
    (SymbolTable.ofProgram p).checkUse f e = .ok () ↔ p.Permits f e := by
  cases e with
  | value l => exact ⟨fun _ => trivial, fun _ => rfl⟩
  | operation o operands type => exact ⟨fun _ => trivial, fun _ => rfl⟩
  | name n =>
    rw [SymbolTable.checkUse, Permits, ← resolve?_ofProgram]
    cases (SymbolTable.ofProgram p).resolve? f n with
    | none => simp
    | some d =>
      obtain ⟨s, kind, type, owner⟩ := d
      cases kind <;> simp [SymbolKind.isCallable]
  | call n args =>
    rw [SymbolTable.checkUse, Permits, ← resolveCall?_ofProgram]
    cases (SymbolTable.ofProgram p).resolveCall? f n with
    | none => simp
    | some d =>
      obtain ⟨s, kind, type, owner⟩ := d
      cases kind <;> simp [SymbolKind.isCallable]

theorem offends_name_iff {p : Program} {f n : String} {err : Error} :
    p.Offends f (.name n) err ↔ p.meaning? f n = none ∧ err = .notFound .value n ∨
      ∃ kind type, p.meaning? f n = some (kind, type) ∧ (kind = .routine ∨ kind = .native) ∧
        err = .misused .value kind n := by
  constructor
  · intro h
    cases h with
    | lostName h => exact .inl ⟨h, rfl⟩
    | bareFunction h hkind => exact .inr ⟨_, _, h, hkind, rfl⟩
  · rintro (⟨h, rfl⟩ | ⟨kind, type, h, hkind, rfl⟩)
    · exact .lostName h
    · exact .bareFunction h hkind

theorem offends_call_iff {p : Program} {f n : String} {args : List Expression} {err : Error} :
    p.Offends f (.call n args) err ↔ p.callMeaning? f n = none ∧ err = .notFound .call n ∨
      ∃ kind type, p.callMeaning? f n = some (kind, type) ∧ (kind = .param ∨ kind = .var) ∧
        err = .misused .call kind n := by
  constructor
  · intro h
    cases h with
    | lostCall h => exact .inl ⟨h, rfl⟩
    | calledValue h hkind => exact .inr ⟨_, _, h, hkind, rfl⟩
  · rintro (⟨h, rfl⟩ | ⟨kind, type, h, hkind, rfl⟩)
    · exact .lostCall h
    · exact .calledValue h hkind

/-- What the check reports of a node is what the rule says of it. -/
theorem checkUse_eq_error {p : Program} {f : String} {e : Expression} {err : Error} :
    (SymbolTable.ofProgram p).checkUse f e = .error err ↔ p.Offends f e err := by
  cases e with
  | value l => exact ⟨fun h => (by cases h), fun h => (by cases h)⟩
  | operation o operands type => exact ⟨fun h => (by cases h), fun h => (by cases h)⟩
  | name n =>
    rw [SymbolTable.checkUse, offends_name_iff, ← resolve?_ofProgram]
    cases (SymbolTable.ofProgram p).resolve? f n with
    | none => simp [eq_comm]
    | some d =>
      obtain ⟨s, kind, type, owner⟩ := d
      cases kind <;> simp [SymbolKind.isCallable, eq_comm]
  | call n args =>
    rw [SymbolTable.checkUse, offends_call_iff, ← resolveCall?_ofProgram]
    cases (SymbolTable.ofProgram p).resolveCall? f n with
    | none => simp [eq_comm]
    | some d =>
      obtain ⟨s, kind, type, owner⟩ := d
      cases kind <;> simp [SymbolKind.isCallable, eq_comm]

/-! ### The check of a program -/

/-- **The check of names decides the rule**, and where the rule is broken it reports the first node
that breaks it, functions and statements in order and operands and arguments before what holds
them. -/
theorem checkNames_ofProgram (p : Program) :
    (p.checkNames (.ofProgram p) = .ok () ↔ ∀ a ∈ p.nodes, p.Permits a.1 a.2) ∧
    ∀ err, p.checkNames (.ofProgram p) = .error err ↔
      ∃ before a after, p.nodes = before ++ a :: after ∧
        (∀ b ∈ before, p.Permits b.1 b.2) ∧ p.Offends a.1 a.2 err := by
  constructor
  · rw [checkNames_eq_ok]
    exact forall₂_congr fun a _ => checkUse_eq_ok
  · intro err
    rw [checkNames, visit_eq, forM_eq_error]
    simp only [checkUse_eq_ok, checkUse_eq_error]

end Program

end ContractBasic
