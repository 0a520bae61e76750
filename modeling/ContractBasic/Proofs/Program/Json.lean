/-
Programs and written source text survive the way through JSON.

Every record is written under the names by which it is read, and every alternative under its own name,
so that one lemma about records and one case per alternative give back each value.  Expressions are read
up to the depth of what is read, and what stands in a value is less deep.  Every number that is written
has at most 64 bits and no key is given twice, so that any text form of JSON keeps what is written.

* `Expression.ofJson?_toJson`, `Program.ofJson?_toJson`, `Generated.ofJson?_toJson` — what is written is
  read back
* `Expression.portable_toJson`, `Program.portable_toJson`, `Generated.portable_toJson` — a text form keeps
  what is written
* `Json.lossless` — nothing is lost, and what is empty or missing is left out
-/
import ContractBasic.Proofs.Json.Record
import ContractBasic.Proofs.Program.Nodes
import ContractBasic.Proofs.SymbolTable

namespace ContractBasic

open Json

/-! ### Types and operators -/

theorem ValueType.ofJson?_toJson (t : ValueType) : ofJson? t.toJson = some t := by
  cases t <;> rfl

theorem ValueType.portable_toJson (t : ValueType) : t.toJson.Portable := .string _

theorem Operator.ofJson?_toJson (o : Operator) : ofJson? o.toJson = some o := by
  rcases o with c | a | b
  · cases c <;> rfl
  · cases a <;> rfl
  · cases b <;> rfl

theorem Operator.portable_toJson (o : Operator) : o.toJson.Portable := by
  cases o with
  | comparison => exact portable_tagged _ (.string _)
  | arithmetic => exact portable_tagged _ (.string _)
  | bitwise => exact portable_tagged _ (.string _)

/-! ### Expressions -/

theorem Literal.ofJson?_toJson (l : Literal) : ofJson? l.toJson = some l := by
  cases l with
  | uint64 n => exact congrArg (Option.map _) (uint64?_ofUInt64 n)
  | string s => rfl

theorem Literal.portable_toJson (l : Literal) : l.toJson.Portable := by
  cases l with
  | uint64 n => exact portable_tagged _ (portable_ofUInt64 n)
  | string s => exact portable_tagged _ (.string s)

namespace Expression

theorem toJsons_eq_map (es : List Expression) : toJsons es = es.map toJson := by
  induction es with
  | nil => rfl
  | cons e es ih => rw [toJsons, ih, List.map_cons]

theorem toJson_call (f : String) (args : List Expression) : (call f args).toJson
    = tagged "call" (record ["name", "args"] [some (.string f), some (.array (args.map toJson))]) := by
  rw [toJson, toJsons_eq_map]
  rfl

theorem toJson_operation (o : Operator) (operands : List Expression) (type : ValueType) :
    (operation o operands type).toJson
      = tagged "operation" (record ["operator", "operands", "operation_type"]
          [some o.toJson, some (.array (operands.map toJson)), some type.toJson]) := by
  rw [toJson, toJsons_eq_map]
  rfl

/-- An expression is read back up to its depth. -/
theorem ofJsonWithin?_toJson {depth : Nat} {e : Expression} (h : e.toJson.depth ≤ depth) :
    ofJsonWithin? depth e.toJson = some e := by
  induction depth generalizing e with
  | zero => exact absurd h (Nat.not_le_of_lt e.toJson.depth_pos)
  | succ depth ih =>
    -- the members of a list stand three values deeper
    have hlist : ∀ {es : List Expression}, (array (es.map toJson)).depth < depth →
        list? (ofJsonWithin? depth) (.array (es.map toJson)) = some es := by
      intro es hes
      refine list?_map fun a ha => ih ?_
      have hmember := depth_lt_array (List.mem_map_of_mem (f := toJson) ha)
      omega
    cases e with
    | value l =>
      rw [toJson, ofJsonWithin?]
      exact congrArg (Option.map _) l.ofJson?_toJson
    | name n =>
      rw [toJson, ofJsonWithin?]
      rfl
    | call f args =>
      rw [toJson_call] at h ⊢
      have hargs : list? (ofJsonWithin? depth) (.array (args.map toJson)) = some args := by
        refine hlist (Nat.lt_of_lt_of_le (depth_lt_record rfl ?_)
          (Nat.le_of_lt_succ (Nat.lt_of_lt_of_le (depth_lt_tagged _ _) h)))
        simp
      simp only [ofJsonWithin?, variant?_tagged]
      rw [fields?_record]
      · simp only [required?, Option.bind_some, hargs]
        rfl
      · decide
      · rfl
    | operation o operands type =>
      rw [toJson_operation] at h ⊢
      have hoperands : list? (ofJsonWithin? depth) (.array (operands.map toJson)) = some operands := by
        refine hlist (Nat.lt_of_lt_of_le (depth_lt_record rfl ?_)
          (Nat.le_of_lt_succ (Nat.lt_of_lt_of_le (depth_lt_tagged _ _) h)))
        simp
      simp only [ofJsonWithin?, variant?_tagged]
      rw [fields?_record]
      · simp only [required?, Option.bind_some, hoperands, o.ofJson?_toJson, type.ofJson?_toJson]
        rfl
      · decide
      · rfl

theorem ofJson?_toJson (e : Expression) : ofJson? e.toJson = some e :=
  ofJsonWithin?_toJson (Nat.le_refl _)

theorem portable_toJson (e : Expression) : e.toJson.Portable := by
  induction e with
  | value l =>
    rw [toJson]
    exact portable_tagged _ l.portable_toJson
  | name n =>
    rw [toJson]
    exact portable_tagged _ (.string n)
  | call f args ih =>
    rw [toJson_call]
    refine portable_tagged _ (portable_record (by decide) rfl ?_)
    simp [Portable.string, portable_map ih]
  | operation o operands type ih =>
    rw [toJson_operation]
    refine portable_tagged _ (portable_record (by decide) rfl ?_)
    simp [Operator.portable_toJson, ValueType.portable_toJson, portable_map ih]

end Expression

/-! ### Statements -/

namespace StatementKind

theorem toJson_branch (c : Expression) (n : UInt64) (otherwise : Option UInt64) :
    (branch c n otherwise).toJson = tagged "branch" (record ["condition", "then", "else"]
      [some c.toJson, some (.ofUInt64 n), otherwise.map .ofUInt64]) := by
  simp [toJson, record, field]

theorem toJson_dim (n : String) (type : ValueType) : (dim n type).toJson
    = tagged "dim" (record ["name", "type"] [some (.string n), some type.toJson]) := rfl

theorem toJson_assign (n : String) (e : Expression) : (assign n e).toJson
    = tagged "let" (record ["name", "expression"] [some (.string n), some e.toJson]) := rfl

theorem ofJson?_toJson (k : StatementKind) : ofJson? k.toJson = some k := by
  cases k with
  | noOp => rfl
  | comment text => rfl
  | result e => exact congrArg (Option.map _) e.ofJson?_toJson
  | evaluate e => exact congrArg (Option.map _) e.ofJson?_toJson
  | branch c n otherwise =>
    have hotherwise : optional? uint64? (otherwise.map .ofUInt64) = some otherwise :=
      optional?_map uint64?_ofUInt64 (fun _ => nofun) otherwise
    simp only [toJson_branch, ofJson?, variant?_tagged]
    rw [fields?_record]
    · simp only [required?, Option.bind_some, c.ofJson?_toJson, uint64?_ofUInt64, hotherwise]
      rfl
    · decide
    · rfl
  | dim n type =>
    simp only [toJson_dim, ofJson?, variant?_tagged]
    rw [fields?_record]
    · simp only [required?, Option.bind_some, type.ofJson?_toJson]
      rfl
    · decide
    · rfl
  | assign n e =>
    simp only [toJson_assign, ofJson?, variant?_tagged]
    rw [fields?_record]
    · simp only [required?, Option.bind_some, e.ofJson?_toJson]
      rfl
    · decide
    · rfl
  | goto n => exact congrArg (Option.map _) (uint64?_ofUInt64 n)

theorem portable_toJson (k : StatementKind) : k.toJson.Portable := by
  cases k with
  | noOp => exact .string _
  | comment text => exact portable_tagged _ (.string text)
  | result e => exact portable_tagged _ e.portable_toJson
  | evaluate e => exact portable_tagged _ e.portable_toJson
  | branch c n otherwise =>
    rw [toJson_branch]
    refine portable_tagged _ (portable_record (by decide) rfl ?_)
    simp [c.portable_toJson, portable_ofUInt64]
  | dim n type =>
    rw [toJson_dim]
    refine portable_tagged _ (portable_record (by decide) rfl ?_)
    simp [Portable.string, type.portable_toJson]
  | assign n e =>
    rw [toJson_assign]
    refine portable_tagged _ (portable_record (by decide) rfl ?_)
    simp [Portable.string, e.portable_toJson]
  | goto n => exact portable_tagged _ (portable_ofUInt64 n)

end StatementKind

namespace Statement

theorem toJson_eq (s : Statement) :
    s.toJson = record ["line", "kind"] [some (.ofUInt64 s.line), some s.kind.toJson] := rfl

theorem ofJson?_toJson (s : Statement) : ofJson? s.toJson = some s := by
  rw [ofJson?, toJson_eq, fields?_record]
  · simp only [required?, Option.bind_some, uint64?_ofUInt64, s.kind.ofJson?_toJson]
    rfl
  · decide
  · rfl

theorem portable_toJson (s : Statement) : s.toJson.Portable := by
  rw [toJson_eq]
  refine portable_record (by decide) rfl ?_
  simp [portable_ofUInt64, s.kind.portable_toJson]

end Statement

/-! ### Programs -/

namespace Param

theorem toJson_eq (p : Param) :
    p.toJson = record ["name", "type"] [some (.string p.name), some p.type.toJson] := rfl

theorem ofJson?_toJson (p : Param) : ofJson? p.toJson = some p := by
  rw [ofJson?, toJson_eq, fields?_record]
  · simp only [required?, Option.bind_some, p.type.ofJson?_toJson]
    rfl
  · decide
  · rfl

theorem portable_toJson (p : Param) : p.toJson.Portable := by
  rw [toJson_eq]
  refine portable_record (by decide) rfl ?_
  simp [Portable.string, p.type.portable_toJson]

end Param

namespace Routine

theorem toJson_eq (r : Routine) :
    r.toJson = record ["name", "return", "args", "statements", "comments"]
      [some (.string r.name), some r.returnType.toJson, some (.array (r.params.map Param.toJson)),
        some (.array (r.statements.map Statement.toJson)),
        if r.comments = [] then none else some (texts r.comments)] := by
  simp [toJson, record, field, textsField]

theorem ofJson?_toJson (r : Routine) : ofJson? r.toJson = some r := by
  have hparams := list?_map fun p (_ : p ∈ r.params) => p.ofJson?_toJson
  have hstatements := list?_map fun s (_ : s ∈ r.statements) => s.ofJson?_toJson
  rw [ofJson?, toJson_eq, fields?_record]
  · simp only [required?, Option.bind_some, r.returnType.ofJson?_toJson, hparams, hstatements,
      default?_texts]
    rfl
  · decide
  · rfl

theorem portable_toJson (r : Routine) : r.toJson.Portable := by
  have hparams := portable_map fun p (_ : p ∈ r.params) => p.portable_toJson
  have hstatements := portable_map fun s (_ : s ∈ r.statements) => s.portable_toJson
  rw [toJson_eq]
  refine portable_record (by decide) rfl ?_
  simp [Portable.string, r.returnType.portable_toJson, hparams, hstatements, portable_texts]

end Routine

namespace Program

theorem toJson_eq (p : Program) :
    p.toJson = record ["headers", "functions"]
      [if p.headers = [] then none else some (texts p.headers),
        some (.array (p.routines.map Routine.toJson))] := by
  simp [toJson, record, field, textsField]

theorem ofJson?_toJson (p : Program) : ofJson? p.toJson = some p := by
  have hroutines := list?_map fun r (_ : r ∈ p.routines) => r.ofJson?_toJson
  rw [ofJson?, toJson_eq, fields?_record]
  · simp only [required?, Option.bind_some, hroutines, default?_texts]
    rfl
  · decide
  · rfl

theorem portable_toJson (p : Program) : p.toJson.Portable := by
  have hroutines := portable_map fun r (_ : r ∈ p.routines) => r.portable_toJson
  rw [toJson_eq]
  refine portable_record (by decide) rfl ?_
  simp [hroutines, portable_texts]

end Program

/-! ### Written source text -/

theorem SymbolKind.ofJson?_toJson (k : SymbolKind) : ofJson? k.toJson = some k := by
  cases k <;> rfl

namespace FullName

theorem toJson_eq (o : FullName) : o.toJson = record ["name", "kind", "owner"]
    [some (.string o.name), some o.kind.toJson, o.owner.map .string] := by
  simp [toJson, record, field]

theorem ofJson?_toJson (o : FullName) : ofJson? o.toJson = some o := by
  have howner : optional? string? (o.owner.map Json.string) = some o.owner :=
    optional?_map (fun s => show string? (.string s) = some s from rfl) (fun _ => nofun) o.owner
  rw [ofJson?, toJson_eq, fields?_record]
  · simp only [required?, Option.bind_some, o.kind.ofJson?_toJson, howner]
    rfl
  · decide
  · rfl

theorem portable_toJson (o : FullName) : o.toJson.Portable := by
  rw [toJson_eq]
  refine portable_record (by decide) rfl ?_
  simp [Portable.string, SymbolKind.toJson]

end FullName

/-- A map is read back with its keys in their order. -/
theorem Json.map?_entries {α : Type} {value? : Json → Option α} {toJson : α → Json}
    (h : ∀ a, value? (toJson a) = some a) (m : OrderedMap α) :
    map? value? (.object (m.entries.map fun e => (e.1, toJson e.2))) = some m := by
  have hentries : (m.entries.map fun e => (e.1, toJson e.2)).mapM
      (fun f => (value? f.2).map fun a => (f.1, a)) = some (m.entries.map id) := by
    rw [List.mapM_map]
    refine mapM_eq_some_map fun e _ => ?_
    rw [Function.comp_apply, h]
    rfl
  -- no key comes again, so that none replaces the value of another
  have hsame : OrderedMap.ofList m.entries = m := by
    rw [OrderedMap.mk.injEq]
    exact OrderedMap.entries_ofList m.nodup
  rw [map?, hentries, List.map_id, Option.map_some, hsame]

namespace Mapping

theorem toJson_eq (m : Mapping) : m.toJson
    = record ["names"] [some (.object (m.entries.map fun e => (e.1, e.2.toJson)))] := rfl

theorem ofJson?_toJson (m : Mapping) : ofJson? m.toJson = some m := by
  rw [ofJson?, toJson_eq, fields?_record]
  · exact map?_entries FullName.ofJson?_toJson m
  · decide
  · rfl

theorem portable_toJson (m : Mapping) : m.toJson.Portable := by
  rw [toJson_eq]
  refine portable_record (by decide) rfl ?_
  have hkeys : ((m.entries.map fun e => (e.1, e.2.toJson)).map Prod.fst).Nodup := by
    rw [List.map_map]
    exact m.nodup
  have hvalues : ∀ f ∈ m.entries.map fun e => (e.1, e.2.toJson), f.2.Portable :=
    List.forall_mem_map.mpr fun e _ => e.2.portable_toJson
  simpa using Portable.object hkeys hvalues

end Mapping

namespace Generated

theorem toJson_eq (g : Generated) : g.toJson = record ["code", "mapping"]
    [some (.string g.code), g.mapping.map Mapping.toJson] := by
  simp [toJson, record, field]

theorem ofJson?_toJson (g : Generated) : ofJson? g.toJson = some g := by
  have hmapping : optional? Mapping.ofJson? (g.mapping.map Mapping.toJson) = some g.mapping :=
    optional?_map Mapping.ofJson?_toJson (fun _ => nofun) g.mapping
  rw [ofJson?, toJson_eq, fields?_record]
  · simp only [required?, Option.bind_some, hmapping]
    rfl
  · decide
  · rfl

theorem portable_toJson (g : Generated) : g.toJson.Portable := by
  rw [toJson_eq]
  refine portable_record (by decide) rfl ?_
  simp [Portable.string, Mapping.portable_toJson]

end Generated

/-! ### Nothing is lost -/

/-- **Programs and written source text survive the way through JSON.**  What is written is read back, the
names of a mapping in their order, and any text form of JSON keeps it.  Headers, comments, targets,
mappings and owners have no field if there are none, and all other fields are always there. -/
theorem Json.lossless :
    (∀ p : Program, Program.ofJson? p.toJson = some p ∧ p.toJson.Portable ∧
      p.toJson.keys = (if p.headers = [] then [] else ["headers"]) ++ ["functions"]) ∧
    (∀ r : Routine, r.toJson.keys
      = ["name", "return", "args", "statements"] ++ if r.comments = [] then [] else ["comments"]) ∧
    (∀ c n otherwise, ∃ body, (StatementKind.branch c n otherwise).toJson = tagged "branch" body ∧
      body.keys = ["condition", "then"] ++ if otherwise = none then [] else ["else"]) ∧
    (∀ g : Generated, Generated.ofJson? g.toJson = some g ∧ g.toJson.Portable ∧
      g.toJson.keys = ["code"] ++ if g.mapping = none then [] else ["mapping"]) ∧
    (∀ m : Mapping, ∃ names, m.toJson = .object [("names", names)] ∧ names.keys = m.keys) ∧
    ∀ o : FullName, o.toJson.keys = ["name", "kind"] ++ if o.owner = none then [] else ["owner"] := by
  refine ⟨fun p => ⟨p.ofJson?_toJson, p.portable_toJson, ?_⟩, fun r => ?_, fun c n otherwise =>
    ⟨_, StatementKind.toJson_branch c n otherwise, ?_⟩,
    fun g => ⟨g.ofJson?_toJson, g.portable_toJson, ?_⟩, fun m => ⟨_, rfl, ?_⟩, fun o => ?_⟩
  · rw [p.toJson_eq, keys_record]
    by_cases h : p.headers = [] <;> simp [h]
  · rw [r.toJson_eq, keys_record]
    by_cases h : r.comments = [] <;> simp [h]
  · rw [keys_record]
    cases otherwise <;> simp
  · rw [g.toJson_eq, keys_record]
    cases g.mapping <;> simp
  · exact List.map_map
  · rw [o.toJson_eq, keys_record]
    cases o.owner <;> simp

end ContractBasic
