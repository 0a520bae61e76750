/-
The check of names.

* `SymbolTable.checkUse_name_eq_ok`, `SymbolTable.checkUse_call_eq_ok` — the nodes that pass
* `Program.checkNames_eq_ok` — a program passes exactly if all its nodes do
-/
import ContractBasic.Program.Names
import ContractBasic.Proofs.Program.Nodes

namespace ContractBasic

namespace SymbolTable

variable {t : SymbolTable} {routine : String}

/-- A bare name passes exactly if it means something that cannot be called. -/
theorem checkUse_name_eq_ok {n : String} :
    t.checkUse routine (.name n) = .ok () ↔
      ∃ s info, t.resolve? routine n = some (s, info) ∧ info.kind.isCallable = false := by
  rw [checkUse]
  cases t.resolve? routine n with
  | none => simp
  | some e =>
    obtain ⟨s, info⟩ := e
    cases hkind : info.kind.isCallable with
    | false =>
      simp only [hkind]
      exact ⟨fun _ => ⟨s, info, rfl, hkind⟩, fun _ => rfl⟩
    | true => simp [hkind]

/-- A call passes exactly if its name means something that can be called. -/
theorem checkUse_call_eq_ok {f : String} {args : List Expression} :
    t.checkUse routine (.call f args) = .ok () ↔
      ∃ s info, t.resolveCall? routine f = some (s, info) ∧ info.kind.isCallable = true := by
  rw [checkUse]
  cases t.resolveCall? routine f with
  | none => simp
  | some e =>
    obtain ⟨s, info⟩ := e
    cases hkind : info.kind.isCallable with
    | false => simp [hkind]
    | true =>
      simp only [hkind]
      exact ⟨fun _ => ⟨s, info, rfl, hkind⟩, fun _ => rfl⟩

end SymbolTable

theorem Program.checkNames_eq_ok {p : Program} {t : SymbolTable} :
    p.checkNames t = .ok () ↔ ∀ n ∈ p.nodes, t.checkUse n.1 n.2 = .ok () := by
  rw [checkNames, visit_eq, forM_eq_ok]

end ContractBasic
