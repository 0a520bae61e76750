/-
A table as a store with scopes.

A table is built by declarations in any order, of globals and of locals of any function.  A name means
the last local of that name in its function, or else the last global, or else a native.  A symbol is
listed where it was first declared: to declare it again changes what is known of it and not its place.

* `lastDeclared?`, `meaning?` — what declarations say of a symbol, and what a name means after them
* `firsts`, `listed` — symbols by their first declaration, and the order in which a table lists them
* `SymbolTable.Arranged` — a table whose keys are in this order, which one declaration more keeps so
* `SymbolTable.reflects_declareAll` — what is declared beside the natives is what the table holds
-/
import ContractBasic.Proofs.SymbolTable

namespace ContractBasic

@[simp] theorem Symbol.scope?_global (n : String) : (global n).scope? = none := rfl

@[simp] theorem Symbol.scope?_inside (f n : String) : (inside f n).scope? = some f := rfl

/-! ### What declarations say -/

/-- What is known of a symbol after declarations in order: what the last declaration of the symbol
says, or else what the native of its name is. -/
def lastDeclared? (ds : List Declaration) (s : Symbol) : Option SymbolInfo :=
  match (ds.filter (·.1 = s)).getLast? with
  | some d => some ⟨d.2.1, d.2.2, s.scope?⟩
  | none =>
    match s with
    | .global n => (Native.find? n).map fun x => ⟨.native, x.returns.getD .unknown, none⟩
    | .inside _ _ => none

/-- What a name means in a function after declarations in order: a local of the function, or else a
global. -/
def meaning? (ds : List Declaration) (f n : String) : Option (Symbol × SymbolInfo) :=
  match lastDeclared? ds (.inside f n) with
  | some info => some (.inside f n, info)
  | none => (lastDeclared? ds (.global n)).map fun info => (.global n, info)

/-- Symbols in the order of their first declaration. -/
def firsts (ds : List Declaration) : List Symbol := (ds.map Prod.fst).eraseDups

/-- The natives as symbols. -/
def Native.symbols : List Symbol := catalog.map fun n => .global n.name

/-- Symbols in the order in which a table lists them: natives, other globals, and the locals of each
function, with the functions in the order of their first locals. -/
def listed (ds : List Declaration) : List Symbol :=
  Native.symbols ++
    (firsts ds).filter (fun s => s.scope? = none ∧ s ∉ Native.symbols) ++
    ((firsts ds).filterMap Symbol.scope?).eraseDups.flatMap fun f =>
      (firsts ds).filter fun s => s.scope? = some f

theorem eraseDups_concat {α : Type} [BEq α] [LawfulBEq α] (l : List α) (a : α) :
    (l ++ [a]).eraseDups = if a ∈ l then l.eraseDups else l.eraseDups ++ [a] := by
  rw [List.eraseDups_append]
  by_cases h : a ∈ l <;> simp [h, List.removeAll, List.eraseDups_cons]

/-- Of one declaration more only a new symbol shows, behind all others. -/
theorem firsts_concat (ds : List Declaration) (d : Declaration) :
    firsts (ds ++ [d]) = if d.1 ∈ firsts ds then firsts ds else firsts ds ++ [d.1] := by
  simp only [firsts, List.map_append, List.map_singleton, eraseDups_concat, List.mem_eraseDups]

namespace SymbolTable

/-! ### What is found -/

theorem get?_natives (s : Symbol) : natives.get? s = (Native.declared.reverse.lookup s).map s.info := by
  rw [natives_eq, get?_declareAll, get?_empty, Option.or_none]

theorem get?_natives_inside (f n : String) : natives.get? (.inside f n) = none := by
  rw [get?, localsOf, natives_eq]
  have hlocals : (Native.declared.foldl declare empty).locals = .empty := rfl
  rw [hlocals]
  rfl

/-- What is found of a symbol is what the declarations say of it. -/
theorem get?_declareAll_natives (ds : List Declaration) (s : Symbol) :
    (ds.foldl declare natives).get? s = lastDeclared? ds s := by
  rw [get?_declareAll, lookup_reverse, lastDeclared?.eq_def]
  cases (ds.filter (·.1 = s)).getLast? with
  | some d => rfl
  | none =>
    cases s with
    | global n =>
      rw [Option.map_none, Option.map_none, Option.none_or, get?_natives, Native.lookup_declared,
        Option.map_map]
      rfl
    | inside f n => exact get?_natives_inside f n

/-- What a name means is what it means by the declarations. -/
theorem resolve?_declareAll_natives (ds : List Declaration) (f n : String) :
    (ds.foldl declare natives).resolve? f n = meaning? ds f n := by
  rw [resolve?, get?_declareAll_natives, get?_declareAll_natives]
  rfl

/-! ### What is listed -/

theorem localsOf_declareLocal (t : SymbolTable) (f g n : String) (kind : SymbolKind)
    (type : ValueType) : (t.declareLocal f n kind type).localsOf g
      = if g = f then (t.localsOf f).insert n ⟨kind, type, some f⟩ else t.localsOf g := by
  rw [localsOf, declareLocal, OrderedMap.get?_insert]
  by_cases h : g = f
  · rw [if_pos h, if_pos h, Option.getD_some]
  · rw [if_neg h, if_neg h, localsOf]

/-- Whether the keys of a table are the symbols that were declared, each at its first declaration. -/
structure Arranged (t : SymbolTable) (ds : List Declaration) : Prop where
  globals : t.globals.keys.map .global
    = Native.symbols ++ (firsts ds).filter fun s => s.scope? = none ∧ s ∉ Native.symbols
  routines : t.locals.keys = ((firsts ds).filterMap Symbol.scope?).eraseDups
  locals : ∀ f, (t.localsOf f).keys.map (.inside f) = (firsts ds).filter fun s => s.scope? = some f

namespace Arranged

variable {t : SymbolTable} {ds : List Declaration} (h : t.Arranged ds)

include h

theorem mem_globals {n : String} :
    n ∈ t.globals.keys ↔ .global n ∈ Native.symbols ∨ .global n ∈ firsts ds := by
  have hmem : n ∈ t.globals.keys ↔ .global n ∈ t.globals.keys.map Symbol.global := by simp
  rw [hmem, h.globals, List.mem_append, List.mem_filter]
  by_cases hn : .global n ∈ Native.symbols <;> simp [hn]

theorem mem_locals {f n : String} : n ∈ (t.localsOf f).keys ↔ .inside f n ∈ firsts ds := by
  have hmem : n ∈ (t.localsOf f).keys ↔ .inside f n ∈ (t.localsOf f).keys.map (Symbol.inside f) := by
    simp
  rw [hmem, h.locals, List.mem_filter]
  simp

theorem declareGlobal (n : String) (kind : SymbolKind) (type : ValueType) :
    (t.declareGlobal n kind type).Arranged (ds ++ [(.global n, kind, type)]) := by
  have hkeys : (t.declareGlobal n kind type).globals.keys
      = if n ∈ t.globals.keys then t.globals.keys else t.globals.keys ++ [n] :=
    OrderedMap.keys_insert _ _ _
  constructor
  case globals =>
    rw [hkeys, firsts_concat]
    by_cases hfirst : .global n ∈ firsts ds
    · -- declared before: neither the keys nor the first occurrences grow
      rw [if_pos (h.mem_globals.mpr (.inr hfirst)), if_pos hfirst, h.globals]
    · rw [if_neg hfirst, List.filter_append, ← List.append_assoc, ← h.globals]
      -- a native has its key from the start, so that declaring it first adds none
      by_cases hnative : .global n ∈ Native.symbols
      · rw [if_pos (h.mem_globals.mpr (.inl hnative))]
        simp [hnative]
      · rw [if_neg fun hmem => (h.mem_globals.mp hmem).elim hnative hfirst]
        simp [hnative]
  case routines =>
    have hlocals : (t.declareGlobal n kind type).locals.keys = t.locals.keys := rfl
    rw [hlocals, h.routines, firsts_concat]
    split <;> simp [List.filterMap_cons]
  case locals =>
    intro f
    have hlocals : (t.declareGlobal n kind type).localsOf f = t.localsOf f := rfl
    rw [hlocals, h.locals, firsts_concat]
    split <;> simp

theorem declareLocal (f n : String) (kind : SymbolKind) (type : ValueType) :
    (t.declareLocal f n kind type).Arranged (ds ++ [(.inside f n, kind, type)]) := by
  have hkeys : (t.declareLocal f n kind type).locals.keys
      = if f ∈ t.locals.keys then t.locals.keys else t.locals.keys ++ [f] :=
    OrderedMap.keys_insert _ _ _
  have hmem : f ∈ t.locals.keys ↔ f ∈ (firsts ds).filterMap Symbol.scope? := by
    rw [h.routines, List.mem_eraseDups]
  constructor
  case globals =>
    have hglobals : (t.declareLocal f n kind type).globals.keys = t.globals.keys := rfl
    rw [hglobals, h.globals, firsts_concat]
    split <;> simp
  case routines =>
    rw [hkeys, firsts_concat]
    -- a function gets its table with the first of its names
    by_cases hfirst : .inside f n ∈ firsts ds
    · rw [if_pos (hmem.mpr (List.mem_filterMap.mpr ⟨_, hfirst, rfl⟩)), if_pos hfirst, h.routines]
    · have hscope : [Symbol.inside f n].filterMap Symbol.scope? = [f] := rfl
      rw [if_neg hfirst, List.filterMap_append, hscope, eraseDups_concat, ← h.routines]
      simp only [hmem]
  case locals =>
    intro g
    rw [localsOf_declareLocal, firsts_concat]
    by_cases hg : g = f
    · subst hg
      rw [if_pos rfl, OrderedMap.keys_insert]
      by_cases hfirst : .inside g n ∈ firsts ds
      · rw [if_pos (h.mem_locals.mpr hfirst), if_pos hfirst, h.locals]
      · rw [if_neg fun hmem => hfirst (h.mem_locals.mp hmem), if_neg hfirst, List.filter_append,
          List.map_append, h.locals]
        simp
    · have hne : ¬ f = g := fun heq => hg heq.symm
      rw [if_neg hg, h.locals]
      split <;> simp [hne]

/-- One declaration more keeps a table arranged. -/
theorem declare (d : Declaration) : (t.declare d).Arranged (ds ++ [d]) := by
  obtain ⟨symbol, kind, type⟩ := d
  cases symbol with
  | global n => exact h.declareGlobal n kind type
  | inside f n => exact h.declareLocal f n kind type

/-- Declarations made one after the other keep a table arranged. -/
theorem declareAll (ds' : List Declaration) :
    (ds'.foldl SymbolTable.declare t).Arranged (ds ++ ds') := by
  induction ds' generalizing t ds with
  | nil => simpa using h
  | cons d ds' ih =>
    have hstep := ih (h.declare d)
    rwa [List.append_assoc, List.singleton_append] at hstep

/-- An arranged table lists symbols in order. -/
theorem symbols : t.symbols.map Prod.fst = listed ds := by
  -- keys are distinct, so what is listed for a function is its own table
  have hlocals : (t.locals.entries.flatMap fun e => e.2.entries.map fun e' =>
      (Symbol.inside e.1 e'.1, e'.2)).map Prod.fst
      = t.locals.keys.flatMap fun f => (t.localsOf f).keys.map (.inside f) := by
    rw [OrderedMap.keys, List.map_flatMap, List.flatMap_map]
    refine List.flatMap_congr fun e he => ?_
    have hrow : t.localsOf e.1 = e.2 := by
      rw [localsOf, OrderedMap.mem_entries.mp he, Option.getD_some]
    rw [hrow, OrderedMap.keys, List.map_map, List.map_map]
    rfl
  have hglobals : (t.globals.entries.map fun e => (Symbol.global e.1, e.2)).map Prod.fst
      = t.globals.keys.map .global := by
    rw [OrderedMap.keys, List.map_map, List.map_map]
    rfl
  rw [SymbolTable.symbols, List.map_append, hglobals, hlocals, h.globals, h.routines, listed]
  simp only [h.locals]

end Arranged

theorem arranged_natives : natives.Arranged [] := by
  refine ⟨by decide +kernel, rfl, fun f => ?_⟩
  rfl

/-! ### Tables and declarations -/

/-- Whether a table holds what declarations in order say. -/
structure Reflects (t : SymbolTable) (ds : List Declaration) : Prop where
  /-- A name means the last local, or else the last global, or else a native. -/
  resolve : ∀ f n, t.resolve? f n = meaning? ds f n
  /-- What is found of a symbol is its last declaration, also where a local hides it. -/
  found : ∀ s, t.get? s = lastDeclared? ds s
  /-- What a name means is found under its symbol. -/
  get : ∀ f n s info, t.resolve? f n = some (s, info) → t.get? s = some info
  /-- Symbols are listed in order. -/
  order : t.symbols.map Prod.fst = listed ds
  nodup : (t.symbols.map Prod.fst).Nodup
  /-- The symbols listed are those found, each with what is found of it. -/
  mem : ∀ s info, (s, info) ∈ t.symbols ↔ t.get? s = some info

/-- **A table holds what was declared.**  After any declarations beside the natives, names mean what
was declared last and symbols stand where they were declared first. -/
theorem reflects_declareAll (ds : List Declaration) : (ds.foldl declare natives).Reflects ds where
  resolve f n := resolve?_declareAll_natives ds f n
  found s := get?_declareAll_natives ds s
  get _ _ _ _ h := get?_of_resolve? h
  order := (arranged_natives.declareAll ds).symbols
  nodup := nodup_symbols _
  mem _ _ := mem_symbols

end SymbolTable

end ContractBasic
