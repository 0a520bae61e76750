/-
New names.

A declaration keeps its name or gets a short one.  Short names are told apart by the supply, names
that are kept by the table, and a short name is told apart from a name that is kept, since a kept
name is taken in small letters.  So no two declarations of a program get the same new name, whatever
functions they stand in.

* `Renaming.mem_ofTable`, `Renaming.nodup_ofTable` — which declarations get short names
* `Renaming.entries_mapping` — the way back lists the short names in order
* `Renaming.newName_injective` — new names tell the declarations of a program apart
* `Renaming.image` — the declaration that a declaration becomes
-/
import ContractBasic.Proofs.Rename.Spelling
import ContractBasic.Proofs.Rename.Supply
import ContractBasic.Proofs.SymbolTable

namespace ContractBasic

/-- The renaming of a program by its own declarations. -/
abbrev Program.renaming (p : Program) : Renaming := .ofTable (.ofProgram p)

namespace Renaming

/-! ### Short names in order -/

theorem assign_cons (supply : Supply) (d : Symbol × SymbolInfo) (ds : List (Symbol × SymbolInfo)) :
    assign supply (d :: ds)
      = ⟨d.1, d.2, (supply.next d.2.kind).1⟩ :: assign (supply.next d.2.kind).2 ds := rfl

theorem map_symbol_assign (supply : Supply) (ds : List (Symbol × SymbolInfo)) :
    (assign supply ds).map (fun e => (e.symbol, e.info)) = ds := by
  induction ds generalizing supply with
  | nil => rfl
  | cons d ds ih => rw [assign_cons, List.map_cons, ih]

theorem exists_shortName_of_mem_assign {supply : Supply} {ds : List (Symbol × SymbolInfo)}
    {e : Renamed} (he : e ∈ assign supply ds) : ∃ n, e.short = shortName e.info.kind n := by
  induction ds generalizing supply with
  | nil => cases he
  | cons d ds ih =>
    rcases List.mem_cons.mp he with rfl | he
    · exact supply.next_eq_shortName d.2.kind
    · exact ih he

theorem not_blocked_of_mem_assign {supply : Supply} {ds : List (Symbol × SymbolInfo)} {e : Renamed}
    (he : e ∈ assign supply ds) : e.short ∉ supply.blocked := by
  induction ds generalizing supply with
  | nil => cases he
  | cons d ds ih =>
    rw [assign_cons] at he
    rcases List.mem_cons.mp he with rfl | he
    · exact supply.next_not_blocked d.2.kind
    · -- what is blocked stays blocked
      have hlater := ih he
      rw [Supply.blocked, Supply.next_taken] at hlater
      exact fun h => hlater (List.mem_cons_of_mem _ h)

theorem not_taken_of_mem_assign {supply : Supply} {ds : List (Symbol × SymbolInfo)} {e : Renamed}
    (he : e ∈ assign supply ds) : e.short ∉ supply.taken :=
  fun h => not_blocked_of_mem_assign he (List.mem_append_left _ h)

theorem nodup_assign (supply : Supply) (ds : List (Symbol × SymbolInfo)) :
    ((assign supply ds).map (·.short)).Nodup := by
  induction ds generalizing supply with
  | nil => exact List.nodup_nil
  | cons d ds ih =>
    rw [assign_cons, List.map_cons, List.nodup_cons]
    refine ⟨?_, ih _⟩
    intro h
    obtain ⟨e, he, heq⟩ := List.mem_map.mp h
    have hfresh := not_taken_of_mem_assign he
    rw [Supply.next_taken, heq] at hfresh
    exact hfresh List.mem_cons_self

/-! ### The renaming of a table -/

theorem nodup_ofTable (t : SymbolTable) : ((ofTable t).map (·.short)).Nodup := nodup_assign _ _

/-- What gets a short name is a declaration of the table that does not keep its name. -/
theorem mem_ofTable {t : SymbolTable} {e : Renamed} (he : e ∈ ofTable t) :
    t.get? e.symbol = some e.info ∧ isPreserved e.symbol.name e.info.kind = false := by
  have hmem : (e.symbol, e.info) ∈ (ofTable t).map fun e => (e.symbol, e.info) :=
    List.mem_map_of_mem he
  rw [ofTable, map_symbol_assign, List.mem_filter] at hmem
  obtain ⟨hmem, hnot⟩ := hmem
  exact ⟨SymbolTable.mem_symbols.mp hmem, by simpa using hnot⟩

theorem exists_mem_ofTable {t : SymbolTable} {s : Symbol} {info : SymbolInfo}
    (hget : t.get? s = some info) (hnot : isPreserved s.name info.kind = false) :
    ∃ e ∈ ofTable t, e.symbol = s := by
  have hmem : (s, info) ∈ (ofTable t).map fun e => (e.symbol, e.info) := by
    rw [ofTable, map_symbol_assign, List.mem_filter]
    exact ⟨SymbolTable.mem_symbols.mpr hget, by simpa using hnot⟩
  obtain ⟨e, he, heq⟩ := List.mem_map.mp hmem
  cases heq
  exact ⟨e, he, rfl⟩

/-- Short names are in small letters. -/
theorem toLower_short {t : SymbolTable} {e : Renamed} (he : e ∈ ofTable t) :
    e.short.toLower = e.short := by
  obtain ⟨n, heq⟩ := exists_shortName_of_mem_assign he
  rw [heq, toLower_shortName]

theorem toLower_upcase_short {t : SymbolTable} {e : Renamed} (he : e ∈ ofTable t) :
    (Text.upcase e.short).toLower = e.short := by
  obtain ⟨n, heq⟩ := exists_shortName_of_mem_assign he
  rw [heq, toLower_upcase_shortName]

/-- No short name is a name that is kept, in whatever case. -/
theorem short_ne_toLower {t : SymbolTable} {e : Renamed} (he : e ∈ ofTable t) {s : Symbol}
    {info : SymbolInfo} (hget : t.get? s = some info)
    (hkept : isPreserved s.name info.kind = true) : e.short ≠ s.name.toLower := by
  have hfree := not_taken_of_mem_assign he
  intro heq
  rw [heq] at hfree
  refine hfree (List.mem_map_of_mem (List.mem_map.mpr ⟨(s, info), ?_, rfl⟩))
  exact List.mem_filter.mpr ⟨SymbolTable.mem_symbols.mpr hget, hkept⟩

theorem exists_mem_of_short? {r : Renaming} {s : Symbol} {x : String} (h : r.short? s = some x) :
    ∃ e ∈ r, e.symbol = s ∧ e.short = x := by
  obtain ⟨e, he, hx⟩ := Option.map_eq_some_iff.mp h
  refine ⟨e, List.mem_of_find?_eq_some he, ?_, hx⟩
  have hsymbol := List.find?_some he
  exact of_decide_eq_true hsymbol

/-- A declaration that keeps its name has no short one. -/
theorem short?_of_kept {t : SymbolTable} {s : Symbol} {info : SymbolInfo}
    (hget : t.get? s = some info) (hkept : isPreserved s.name info.kind = true) :
    (ofTable t).short? s = none := by
  cases hshort : (ofTable t).short? s with
  | none => rfl
  | some x =>
    obtain ⟨e, he, rfl, -⟩ := exists_mem_of_short? hshort
    obtain ⟨hget', hnot⟩ := mem_ofTable he
    rw [hget] at hget'
    cases hget'
    rw [hkept] at hnot
    cases hnot

theorem newName_of_kept {t : SymbolTable} {s : Symbol} {info : SymbolInfo}
    (hget : t.get? s = some info) (hkept : isPreserved s.name info.kind = true) :
    (ofTable t).newName s = s.name := by
  rw [newName, short?_of_kept hget hkept]
  rfl

theorem newName_of_short? {r : Renaming} {s : Symbol} {x : String} (h : r.short? s = some x) :
    r.newName s = x := by
  rw [newName, h, Option.getD_some]

/-- A declaration that does not keep its name has a short one. -/
theorem exists_short?_of_not_kept {t : SymbolTable} {s : Symbol} {info : SymbolInfo}
    (hget : t.get? s = some info) (hnot : isPreserved s.name info.kind = false) :
    ∃ e ∈ ofTable t, e.symbol = s ∧ (ofTable t).short? s = some e.short := by
  obtain ⟨e₀, he₀, hs₀⟩ := exists_mem_ofTable hget hnot
  cases hshort : (ofTable t).short? s with
  | none =>
    have hfind : (ofTable t).find? (fun e => e.symbol = s) = none := Option.map_eq_none_iff.mp hshort
    rw [List.find?_eq_none] at hfind
    exact absurd (decide_eq_true hs₀) (hfind e₀ he₀)
  | some x =>
    obtain ⟨e, he, hs, rfl⟩ := exists_mem_of_short? hshort
    exact ⟨e, he, hs, rfl⟩

/-- What is listed with a short name has it as its new name. -/
theorem newName_of_mem {t : SymbolTable} {e : Renamed} (he : e ∈ ofTable t) :
    (ofTable t).newName e.symbol = e.short := by
  have hnodup : ((ofTable t).map (·.symbol)).Nodup := by
    have hsymbols : (ofTable t).map (·.symbol)
        = ((ofTable t).map fun e => (e.symbol, e.info)).map Prod.fst := by
      rw [List.map_map]
      rfl
    rw [hsymbols, ofTable, map_symbol_assign]
    exact t.nodup_symbols.sublist (List.filter_sublist.map _)
  obtain ⟨hget, hnot⟩ := mem_ofTable he
  obtain ⟨e', he', hsymbol, hshort⟩ := exists_short?_of_not_kept hget hnot
  rw [newName_of_short? hshort, List.inj_on_of_nodup_map hnodup he' he hsymbol]

/-- The way back lists short names in the order in which they were given out. -/
theorem entries_mapping (t : SymbolTable) : (ofTable t).mapping.entries
    = (ofTable t).map fun e => (e.short, ⟨e.symbol.name, e.info.kind, e.info.owner⟩) := by
  refine OrderedMap.entries_ofList ?_
  rw [List.map_map]
  exact nodup_ofTable t

/-! ### The renaming of a program -/

/-- What keeps its name is global. -/
theorem eq_global_of_kept {p : Program} {s : Symbol} {info : SymbolInfo}
    (hget : (SymbolTable.ofProgram p).get? s = some info)
    (hkept : isPreserved s.name info.kind = true) : s = .global s.name := by
  obtain ⟨hdeclared, -⟩ := SymbolTable.mem_declared_of_get? hget
  have hcallable := Program.isCallable_of_mem_declared hdeclared
  cases s with
  | global n => rfl
  | inside f n =>
    -- parameters and variables never keep their names
    have hkind : info.kind.isCallable = false := hcallable
    cases hk : info.kind <;> rw [hk] at hkind hkept
    · cases hkept
    · cases hkept
    · cases hkind
    · cases hkind

/-- No two declarations of a program get the same new name. -/
theorem newName_injective {p : Program} {s s' : Symbol} {info info' : SymbolInfo}
    (hget : (SymbolTable.ofProgram p).get? s = some info)
    (hget' : (SymbolTable.ofProgram p).get? s' = some info')
    (h : p.renaming.newName s = p.renaming.newName s') : s = s' := by
  cases hs : isPreserved s.name info.kind <;> cases hs' : isPreserved s'.name info'.kind
  · -- two short names
    obtain ⟨e, he, rfl, hshort⟩ := exists_short?_of_not_kept hget hs
    obtain ⟨e', he', rfl, hshort'⟩ := exists_short?_of_not_kept hget' hs'
    rw [newName_of_short? hshort, newName_of_short? hshort'] at h
    rw [List.inj_on_of_nodup_map (nodup_ofTable _) he he' h]
  · obtain ⟨e, he, -, hshort⟩ := exists_short?_of_not_kept hget hs
    rw [newName_of_short? hshort, newName_of_kept hget' hs'] at h
    exact absurd (h ▸ toLower_short he).symm (h ▸ short_ne_toLower he hget' hs')
  · obtain ⟨e', he', -, hshort'⟩ := exists_short?_of_not_kept hget' hs'
    rw [newName_of_short? hshort', newName_of_kept hget hs] at h
    exact absurd (h.symm ▸ toLower_short he').symm (h.symm ▸ short_ne_toLower he' hget hs)
  · -- two names that are kept
    rw [newName_of_kept hget hs, newName_of_kept hget' hs'] at h
    rw [eq_global_of_kept hget hs, eq_global_of_kept hget' hs', h]

/-! ### Images -/

/-- The declaration that a declaration becomes. -/
def image (r : Renaming) : Symbol → Symbol
  | .global g => .global (r.newName (.global g))
  | .inside f n => .inside (r.newName (.global f)) (r.newName (.inside f n))

@[simp] theorem name_image (r : Renaming) (s : Symbol) : (r.image s).name = r.newName s := by
  cases s <;> rfl

theorem image_injective {p : Program} {s s' : Symbol} {info info' : SymbolInfo}
    (hget : (SymbolTable.ofProgram p).get? s = some info)
    (hget' : (SymbolTable.ofProgram p).get? s' = some info')
    (h : p.renaming.image s = p.renaming.image s') : s = s' := by
  refine newName_injective hget hget' ?_
  rw [← name_image, ← name_image, h]

end Renaming

end ContractBasic
