/-
What a table of declarations holds.

A table is the outcome of declarations that are made one after the other.  What is found in it is the
last declaration of a symbol, wherever the declarations of other symbols stand.

* `SymbolTable.declare`, `SymbolTable.get?_declare` — one declaration more
* `SymbolTable.get?_declareAll` — the last declaration of a symbol is the one found
* `SymbolTable.mem_symbols` — the listed declarations of a table are those found in it
* `Program.declared`, `SymbolTable.get?_ofProgram` — the declarations of a program
-/
import ContractBasic.SymbolTable
import Mathlib.Data.List.Nodup

namespace ContractBasic

/-! ### Maps -/

theorem lookup_eq_some_of_nodup {κ α : Type} [BEq κ] [LawfulBEq κ] {es : List (κ × α)}
    (hnodup : (es.map Prod.fst).Nodup) {k : κ} {v : α} :
    es.lookup k = some v ↔ (k, v) ∈ es := by
  induction es with
  | nil => simp
  | cons e es ih =>
    obtain ⟨l, w⟩ := e
    rw [List.map_cons, List.nodup_cons] at hnodup
    rw [List.lookup_cons, List.mem_cons, Prod.mk.injEq]
    by_cases h : k = l
    · subst h
      have hnot : ∀ v, (k, v) ∉ es := fun v hv =>
        hnodup.1 (List.mem_map.mpr ⟨_, hv, rfl⟩)
      simp [hnot, eq_comm]
    · simp [h, beq_eq_false_iff_ne.mpr h, ih hnodup.2]

/-- Looking up from the back finds the last value under a key. -/
theorem lookup_reverse {κ α : Type} [DecidableEq κ] (es : List (κ × α)) (k : κ) :
    es.reverse.lookup k = (es.filter (·.1 = k)).getLast?.map Prod.snd := by
  rw [List.getLast?_filter]
  induction es.reverse with
  | nil => rfl
  | cons e es ih =>
    obtain ⟨l, v⟩ := e
    rw [List.lookup_cons, List.find?_cons, ih]
    by_cases h : l = k
    · simp [h]
    · have hne : (k == l) = false := beq_eq_false_iff_ne.mpr fun heq => h heq.symm
      simp [h, hne]

/-- Where keys are different it does not matter from which end a value is looked up. -/
theorem lookup_reverse_of_nodup {κ α : Type} [BEq κ] [LawfulBEq κ] {es : List (κ × α)}
    (h : (es.map Prod.fst).Nodup) (k : κ) : es.reverse.lookup k = es.lookup k := by
  have hreverse : (es.reverse.map Prod.fst).Nodup := by
    rw [List.map_reverse]
    exact List.nodup_reverse.mpr h
  refine Option.ext fun v => ?_
  rw [lookup_eq_some_of_nodup hreverse, lookup_eq_some_of_nodup h, List.mem_reverse]

theorem OrderedMap.mem_entries {α : Type} {m : OrderedMap α} {k : String} {v : α} :
    (k, v) ∈ m.entries ↔ m.get? k = some v :=
  (lookup_eq_some_of_nodup m.nodup).symm

namespace OrderedMap

variable {α : Type}

theorem put_of_not_mem {k : String} {v : α} {es : List (String × α)} (h : k ∉ es.map Prod.fst) :
    put k v es = es ++ [(k, v)] := by
  induction es with
  | nil => rfl
  | cons e es ih =>
    rw [List.map_cons, List.mem_cons, not_or] at h
    rw [put, if_neg fun heq => h.1 heq.symm, ih h.2, List.cons_append]

theorem entries_insertAll {es : List (String × α)} {m : OrderedMap α}
    (h : ((m.entries ++ es).map Prod.fst).Nodup) :
    (es.foldl (fun m e => m.insert e.1 e.2) m).entries = m.entries ++ es := by
  induction es generalizing m with
  | nil => simp
  | cons e es ih =>
    have hnew : e.1 ∉ m.entries.map Prod.fst := by
      rw [List.map_append, List.nodup_append] at h
      exact fun hmem => h.2.2 _ hmem _ List.mem_cons_self rfl
    have hentries : (m.insert e.1 e.2).entries = m.entries ++ [e] := put_of_not_mem hnew
    rw [List.foldl_cons, ih, hentries, List.append_assoc, List.singleton_append]
    rwa [hentries, List.append_assoc, List.singleton_append]

/-- A map of entries with different keys lists them as they came. -/
theorem entries_ofList {es : List (String × α)} (h : (es.map Prod.fst).Nodup) :
    (ofList es).entries = es :=
  entries_insertAll h

end OrderedMap

/-- Looking up a new key in a list with new keys and values, where no other key becomes that one. -/
theorem lookup_map_of_injOn {α β γ : Type} [BEq α] [LawfulBEq α] {σ : α → α} {g : α → β → γ} {k : α}
    {es : List (α × β)} (h : ∀ e ∈ es, σ e.1 = σ k → e.1 = k) :
    (es.map fun e => (σ e.1, g e.1 e.2)).lookup (σ k) = (es.lookup k).map (g k) := by
  induction es with
  | nil => rfl
  | cons e es ih =>
    have htail := ih fun e' he => h e' (List.mem_cons_of_mem _ he)
    rw [List.map_cons, List.lookup_cons, List.lookup_cons, htail]
    by_cases hk : k = e.1
    · simp [hk]
    · have hσ : σ k ≠ σ e.1 := fun heq => hk (h e List.mem_cons_self heq.symm).symm
      simp [beq_eq_false_iff_ne.mpr hk, beq_eq_false_iff_ne.mpr hσ]

/-! ### Declaring -/

/-- What a declaration says: the symbol, what it stands for, and its type. -/
abbrev Declaration := Symbol × SymbolKind × ValueType

/-- What is known of a symbol after a declaration. -/
def Symbol.info (s : Symbol) (d : SymbolKind × ValueType) : SymbolInfo := ⟨d.1, d.2, s.scope?⟩

namespace SymbolTable

/-- The table with one declaration more. -/
def declare (t : SymbolTable) : Declaration → SymbolTable
  | (.global n, kind, type) => t.declareGlobal n kind type
  | (.inside f n, kind, type) => t.declareLocal f n kind type

theorem get?_declare (t : SymbolTable) (d : Declaration) (s : Symbol) :
    (t.declare d).get? s = if s = d.1 then some (s.info d.2) else t.get? s := by
  obtain ⟨symbol, kind, type⟩ := d
  -- only the table that the declaration goes to can answer differently
  cases symbol with
  | global n =>
    cases s with
    | global m =>
      by_cases h : m = n <;>
        simp [declare, declareGlobal, get?, OrderedMap.get?_insert, h, Symbol.info, Symbol.scope?]
    | inside g m =>
      simp [declare, declareGlobal, get?, localsOf]
  | inside f n =>
    cases s with
    | global m =>
      simp [declare, declareLocal, get?]
    | inside g m =>
      by_cases hg : g = f
      · subst hg
        by_cases hm : m = n <;>
          simp [declare, declareLocal, get?, localsOf, OrderedMap.get?_insert, hm, Symbol.info,
            Symbol.scope?]
      · simp [declare, declareLocal, get?, localsOf, OrderedMap.get?_insert, hg]

theorem get?_empty (s : Symbol) : empty.get? s = none := by
  cases s <;> rfl

/-- Of several declarations of a symbol the last is the one found. -/
theorem get?_declareAll (ds : List Declaration) (t : SymbolTable) (s : Symbol) :
    (ds.foldl declare t).get? s = ((ds.reverse.lookup s).map s.info).or (t.get? s) := by
  induction ds generalizing t with
  | nil => rfl
  | cons d ds ih =>
    obtain ⟨symbol, d⟩ := d
    rw [List.foldl_cons, ih, get?_declare, List.reverse_cons, List.lookup_append,
      List.lookup_cons, List.lookup_nil]
    by_cases h : s = symbol
    · subst h
      cases ds.reverse.lookup s <;> simp
    · cases ds.reverse.lookup s <;> simp [h, beq_eq_false_iff_ne.mpr h]

/-! ### Listing -/

/-- The declarations that a table lists are those that are found in it. -/
theorem mem_symbols {t : SymbolTable} {s : Symbol} {info : SymbolInfo} :
    (s, info) ∈ t.symbols ↔ t.get? s = some info := by
  rw [symbols, List.mem_append, List.mem_map, List.mem_flatMap]
  cases s with
  | global n =>
    rw [get?, ← OrderedMap.mem_entries]
    simp
  | inside f n =>
    rw [get?, localsOf]
    -- keys are distinct, so a function has at most one table of its own among the entries
    cases hf : t.locals.get? f with
    | none =>
      have hnot : ∀ inner, (f, inner) ∉ t.locals.entries := by
        intro inner hmem
        rw [OrderedMap.mem_entries, hf] at hmem
        cases hmem
      simp [hnot, OrderedMap.get?, OrderedMap.empty]
    | some inner =>
      have hmem : ∀ inner', (f, inner') ∈ t.locals.entries ↔ inner' = inner := by
        intro inner'
        rw [OrderedMap.mem_entries, hf, Option.some_inj, eq_comm]
      rw [Option.getD_some, ← OrderedMap.mem_entries]
      constructor
      · rintro (⟨e, -, heq⟩ | ⟨⟨g, inner'⟩, hg, he⟩)
        · cases heq
        · obtain ⟨e, hmem', heq⟩ := List.mem_map.mp he
          cases heq
          rwa [(hmem inner').mp hg] at hmem'
      · intro h
        exact .inr ⟨(f, inner), (hmem inner).mpr rfl, List.mem_map_of_mem h⟩

/-- A table lists every declaration once. -/
theorem nodup_symbols (t : SymbolTable) : (t.symbols.map Prod.fst).Nodup := by
  rw [symbols, List.map_append, List.nodup_append]
  refine ⟨?_, ?_, ?_⟩
  · have hnodup := t.globals.nodup.map (f := Symbol.global) fun m n h => by injection h
    rwa [List.map_map] at hnodup ⊢
  · rw [List.map_flatMap, List.nodup_flatMap]
    constructor
    · rintro ⟨f, inner⟩ -
      have hnodup := inner.nodup.map (f := Symbol.inside f) fun m n h => by injection h
      rwa [List.map_map] at hnodup ⊢
    · -- rows of two functions have no symbol in common
      refine (List.pairwise_map.mp t.locals.nodup).imp ?_
      rintro ⟨f, inner⟩ ⟨g, inner'⟩ hne
      intro s hs hs'
      obtain ⟨e, he, rfl⟩ := List.mem_map.mp hs
      obtain ⟨x, -, rfl⟩ := List.mem_map.mp he
      obtain ⟨e', he', heq⟩ := List.mem_map.mp hs'
      obtain ⟨x', -, rfl⟩ := List.mem_map.mp he'
      exact hne (Symbol.inside.inj heq).1.symm
  · intro s hs s' hs' heq
    obtain ⟨e, he, rfl⟩ := List.mem_map.mp hs
    obtain ⟨x, -, rfl⟩ := List.mem_map.mp he
    obtain ⟨e', he', rfl⟩ := List.mem_map.mp hs'
    obtain ⟨y, -, he'⟩ := List.mem_flatMap.mp he'
    obtain ⟨x', -, rfl⟩ := List.mem_map.mp he'
    cases heq

/-! ### Looking up -/

theorem resolve?_of_local {t : SymbolTable} {f n : String} {info : SymbolInfo}
    (h : t.get? (.inside f n) = some info) : t.resolve? f n = some (.inside f n, info) := by
  rw [resolve?, h]

theorem resolve?_of_global {t : SymbolTable} {f n : String} {info : SymbolInfo}
    (hlocal : t.get? (.inside f n) = none) (h : t.get? (.global n) = some info) :
    t.resolve? f n = some (.global n, info) := by
  rw [resolve?, hlocal, h]
  rfl

theorem resolve?_eq_none {t : SymbolTable} {f n : String} :
    t.resolve? f n = none ↔ t.get? (.inside f n) = none ∧ t.get? (.global n) = none := by
  rw [resolve?]
  cases t.get? (.inside f n) <;> simp

/-- A name means a local of its function, or else a global. -/
theorem resolve?_cases {t : SymbolTable} {f n : String} {s : Symbol} {info : SymbolInfo}
    (h : t.resolve? f n = some (s, info)) :
    t.get? s = some info ∧
      (s = .inside f n ∨ s = .global n ∧ t.get? (.inside f n) = none) := by
  rw [resolve?] at h
  cases hlocal : t.get? (.inside f n) with
  | some info' =>
    rw [hlocal] at h
    cases h
    exact ⟨hlocal, .inl rfl⟩
  | none =>
    rw [hlocal] at h
    obtain ⟨info', hglobal, heq⟩ := Option.map_eq_some_iff.mp h
    cases heq
    exact ⟨hglobal, .inr ⟨rfl, rfl⟩⟩

theorem get?_of_resolve? {t : SymbolTable} {f n : String} {s : Symbol} {info : SymbolInfo}
    (h : t.resolve? f n = some (s, info)) : t.get? s = some info :=
  (resolve?_cases h).1

theorem name_of_resolve? {t : SymbolTable} {f n : String} {s : Symbol} {info : SymbolInfo}
    (h : t.resolve? f n = some (s, info)) : s.name = n := by
  rcases (resolve?_cases h).2 with rfl | ⟨rfl, -⟩ <;> rfl

theorem get?_of_resolveCall? {t : SymbolTable} {f n : String} {s : Symbol} {info : SymbolInfo}
    (h : t.resolveCall? f n = some (s, info)) : t.get? s = some info := by
  rw [resolveCall?, Option.or_eq_some_iff] at h
  rcases h with h | ⟨-, h⟩
  · exact get?_of_resolve? h
  · exact get?_of_resolve? h

end SymbolTable

/-! ### The declarations of a program -/

namespace Native

/-- The declarations of the natives. -/
def declared : List Declaration :=
  catalog.map fun n => (.global n.name, .native, n.returns.getD .unknown)

theorem nodup_declared : (declared.map Prod.fst).Nodup := by decide +kernel

/-- What is declared of a native is what the catalog says of it. -/
theorem lookup_declared (n : String) : declared.reverse.lookup (.global n)
    = (find? n).map fun x => (.native, x.returns.getD .unknown) := by
  rw [lookup_reverse_of_nodup nodup_declared, declared, find?]
  induction catalog with
  | nil => rfl
  | cons x xs ih =>
    rw [List.map_cons, List.lookup_cons, List.find?_cons, ih]
    by_cases h : x.name = n
    · simp [h]
    · have hne : Symbol.global n ≠ Symbol.global x.name := fun heq => h (Symbol.global.inj heq).symm
      simp [h, beq_eq_false_iff_ne.mpr hne]

end Native

theorem SymbolTable.natives_eq : natives = Native.declared.foldl declare empty := by
  rw [Native.declared, List.foldl_map]
  rfl

/-- The declarations inside a function. -/
def Routine.declared (r : Routine) : List Declaration :=
  (SymbolTable.declarations r).map fun d => (.inside r.name d.1, d.2)

namespace Program

/-- The declarations of a program: natives, functions, and what is declared inside the functions. -/
def declared (p : Program) : List Declaration :=
  Native.declared ++ p.routines.map (fun r => (.global r.name, .routine, r.returnType)) ++
    p.routines.flatMap Routine.declared

end Program

namespace SymbolTable

theorem ofProgram_eq (p : Program) : ofProgram p = p.declared.foldl declare empty := by
  have hlocals : (fun t (r : Routine) => r.declared.foldl declare t) = declareLocals := by
    funext t r
    rw [Routine.declared, List.foldl_map]
    rfl
  rw [Program.declared, List.foldl_append, List.foldl_append, ← natives_eq, List.foldl_map,
    List.foldl_flatMap, hlocals]
  rfl

/-- What is found in the table of a program is the last declaration of a symbol. -/
theorem get?_ofProgram (p : Program) (s : Symbol) :
    (ofProgram p).get? s = (p.declared.reverse.lookup s).map s.info := by
  rw [ofProgram_eq, get?_declareAll, get?_empty, Option.or_none]

theorem get?_ofProgram_isSome {p : Program} {s : Symbol} :
    ((ofProgram p).get? s).isSome ↔ s ∈ p.declared.map Prod.fst := by
  rw [get?_ofProgram, Option.isSome_map, List.lookup_isSome_iff, List.mem_map]
  refine exists_congr fun d => ?_
  rw [List.mem_reverse, beq_iff_eq, eq_comm]

theorem get?_ofProgram_of_mem {p : Program} {d : Declaration} (hd : d ∈ p.declared) :
    ((ofProgram p).get? d.1).isSome :=
  get?_ofProgram_isSome.mpr (List.mem_map_of_mem hd)

theorem mem_declared_of_get? {p : Program} {s : Symbol} {info : SymbolInfo}
    (h : (ofProgram p).get? s = some info) :
    (s, info.kind, info.type) ∈ p.declared ∧ info.owner = s.scope? := by
  rw [get?_ofProgram, Option.map_eq_some_iff] at h
  obtain ⟨d, hd, rfl⟩ := h
  obtain ⟨ds, ds', hcut, -⟩ := List.lookup_eq_some_iff.mp hd
  refine ⟨List.mem_reverse.mp ?_, rfl⟩
  rw [hcut]
  exact List.mem_append_right _ List.mem_cons_self

end SymbolTable

/-- What is declared inside a function cannot be called, and what is declared outside can. -/
theorem Program.isCallable_of_mem_declared {p : Program} {d : Declaration} (hd : d ∈ p.declared) :
    d.2.1.isCallable = d.1.scope?.isNone := by
  rw [declared, List.mem_append, List.mem_append, Native.declared, List.mem_map, List.mem_map,
    List.mem_flatMap] at hd
  rcases hd with (⟨n, -, rfl⟩ | ⟨r, -, rfl⟩) | ⟨r, -, hd⟩
  · rfl
  · rfl
  · obtain ⟨e, he, rfl⟩ := List.mem_map.mp hd
    rw [SymbolTable.declarations, List.mem_append, List.mem_map, List.mem_filterMap] at he
    rcases he with ⟨x, -, rfl⟩ | ⟨st, -, hst⟩
    · rfl
    · split at hst
      · cases hst
        rfl
      · cases hst

/-- What a declaration inside a function stands in is declared as well. -/
theorem Program.global_mem_declared {p : Program} {f n : String}
    (h : Symbol.inside f n ∈ p.declared.map Prod.fst) :
    Symbol.global f ∈ p.declared.map Prod.fst := by
  obtain ⟨d, hd, hsymbol⟩ := List.mem_map.mp h
  rw [declared, List.mem_append, List.mem_append, Native.declared, List.mem_map, List.mem_map,
    List.mem_flatMap] at hd
  rcases hd with (⟨n, -, rfl⟩ | ⟨r, -, rfl⟩) | ⟨r, hr, hd⟩
  · cases hsymbol
  · cases hsymbol
  · obtain ⟨e, -, rfl⟩ := List.mem_map.mp hd
    cases hsymbol
    refine List.mem_map.mpr ⟨(.global r.name, .routine, r.returnType), ?_, rfl⟩
    rw [declared, List.mem_append, List.mem_append]
    exact .inl (.inr (List.mem_map_of_mem hr))

/-- The functions of a program are found in its table. -/
theorem SymbolTable.get?_routine_isSome {p : Program} {r : Routine} (hr : r ∈ p.routines) :
    ((ofProgram p).get? (.global r.name)).isSome :=
  get?_ofProgram_of_mem (d := (.global r.name, .routine, r.returnType))
    (List.mem_append_left _ (List.mem_append_right _ (List.mem_map_of_mem hr)))

/-- What a function declares is found in the table of its program. -/
theorem SymbolTable.get?_declaration_isSome {p : Program} {r : Routine} (hr : r ∈ p.routines)
    {d : String × SymbolKind × ValueType} (hd : d ∈ declarations r) :
    ((ofProgram p).get? (.inside r.name d.1)).isSome :=
  get?_ofProgram_of_mem (d := (.inside r.name d.1, d.2))
    (List.mem_append_right _ (List.mem_flatMap.mpr ⟨r, hr, List.mem_map_of_mem hd⟩))

/-- The function that a local belongs to is found as well. -/
theorem SymbolTable.get?_global_isSome {p : Program} {f n : String} {info : SymbolInfo}
    (h : (ofProgram p).get? (.inside f n) = some info) :
    ((ofProgram p).get? (.global f)).isSome := by
  have hlocal := get?_ofProgram_isSome.mp (Option.isSome_of_eq_some h)
  exact get?_ofProgram_isSome.mpr (Program.global_mem_declared hlocal)

end ContractBasic
