/-
Renamed declarations in order.

Maps list their keys as they came, so what a table lists hangs on which names are equal and on nothing
else about them.  A renaming that tells declarations apart leaves the order as it is: the table of the
renamed program lists the images of what the table of the program lists.  Short names are given out in
this order, after kinds, and avoid the names that are kept; so a declaration and its image get the same
short name.

* `OrderedMap.map_put` — an entry under new keys goes where the entry goes
* `Renaming.Follows`, `Renaming.Follows.declareAll` — tables that list images, and declarations that
  keep them so
* `Renaming.Proper` — renamings of private declarations that tell declarations apart
* `Renaming.Proper.symbols_rename` — a renamed program lists the images of what the program lists
* `Renaming.Proper.newName_image` — what is renamed twice is named as what is renamed once
-/
import ContractBasic.Proofs.Rename.Meaning

namespace ContractBasic

/-! ### Entries -/

namespace OrderedMap

variable {α β : Type}

theorem mem_put {k : String} {v : α} {es : List (String × α)} {e : String × α}
    (he : e ∈ put k v es) : e = (k, v) ∨ e ∈ es := by
  induction es with
  | nil => exact .inl (List.mem_singleton.mp he)
  | cons e' es ih =>
    rw [put] at he
    split at he
    · exact (List.mem_cons.mp he).imp_right (List.mem_cons_of_mem _)
    · rcases List.mem_cons.mp he with rfl | he
      · exact .inr List.mem_cons_self
      · exact (ih he).imp_right (List.mem_cons_of_mem _)

/-- An entry with new key and value goes where the entry goes, if no other key becomes its key. -/
theorem map_put {σ : String → String} {g : String → α → β} {k : String} {v : α}
    {es : List (String × α)} (h : ∀ e ∈ es, σ e.1 = σ k → e.1 = k) :
    (put k v es).map (fun e => (σ e.1, g e.1 e.2))
      = put (σ k) (g k v) (es.map fun e => (σ e.1, g e.1 e.2)) := by
  induction es with
  | nil => rfl
  | cons e es ih =>
    have htail := ih fun e' he => h e' (List.mem_cons_of_mem _ he)
    by_cases hk : e.1 = k
    · simp [put, hk]
    · have hσ : σ e.1 ≠ σ k := fun heq => hk (h e List.mem_cons_self heq)
      simp only [put, List.map_cons, if_neg hk, if_neg hσ, htail]

end OrderedMap

/-! ### Tables -/

namespace SymbolTable

/-- The locals of each function, as lists. -/
def rows (t : SymbolTable) : List (String × List (String × SymbolInfo)) :=
  t.locals.entries.map fun e => (e.1, e.2.entries)

theorem symbols_eq (t : SymbolTable) :
    t.symbols = t.globals.entries.map (fun e => (.global e.1, e.2)) ++
      t.rows.flatMap fun row => row.2.map fun e => (.inside row.1 e.1, e.2) := by
  rw [symbols, rows, List.flatMap_map]

/-- The locals of a function as a list. -/
def row (t : SymbolTable) (f : String) : List (String × SymbolInfo) := (t.rows.lookup f).getD []

theorem entries_localsOf (t : SymbolTable) (f : String) : (t.localsOf f).entries = t.row f := by
  have hlookup : t.rows.lookup f = (t.locals.entries.lookup f).map OrderedMap.entries :=
    lookup_map_of_injOn (σ := id) (g := fun _ => OrderedMap.entries) fun _ _ h => h
  rw [row, hlookup, localsOf, OrderedMap.get?]
  cases t.locals.entries.lookup f <;> rfl

theorem rows_declareLocal (t : SymbolTable) (f n : String) (kind : SymbolKind) (type : ValueType) :
    (t.declareLocal f n kind type).rows
      = OrderedMap.put f (OrderedMap.put n ⟨kind, type, some f⟩ (t.row f)) t.rows := by
  rw [← entries_localsOf]
  exact OrderedMap.map_put (σ := id) (g := fun _ => OrderedMap.entries) fun _ _ h => h

theorem mem_rows_of_mem_row {t : SymbolTable} {f : String} {e : String × SymbolInfo}
    (he : e ∈ t.row f) : (f, t.row f) ∈ t.rows := by
  rw [row] at he ⊢
  cases hf : t.rows.lookup f with
  | none =>
    rw [hf] at he
    cases he
  | some es =>
    obtain ⟨before, behind, hcut, -⟩ := List.lookup_eq_some_iff.mp hf
    rw [hcut]
    simp

/-- Whether all keys of a table are declarations of a kind. -/
structure Within (t : SymbolTable) (P : Symbol → Prop) : Prop where
  globals : ∀ e ∈ t.globals.entries, P (.global e.1)
  routines : ∀ row ∈ t.rows, P (.global row.1)
  locals : ∀ row ∈ t.rows, ∀ e ∈ row.2, P (.inside row.1 e.1)

theorem within_empty (P : Symbol → Prop) : empty.Within P := ⟨nofun, nofun, nofun⟩

theorem Within.row {t : SymbolTable} {P : Symbol → Prop} (h : t.Within P) {f : String}
    {e : String × SymbolInfo} (he : e ∈ t.row f) : P (.inside f e.1) :=
  h.locals _ (mem_rows_of_mem_row he) e he

/-- One declaration more stays within, if it stands in a function that does. -/
theorem Within.declare {t : SymbolTable} {P : Symbol → Prop} (h : t.Within P) {d : Declaration}
    (hd : P d.1) (hclosed : ∀ {f n}, P (.inside f n) → P (.global f)) : (t.declare d).Within P := by
  obtain ⟨symbol, kind, type⟩ := d
  cases symbol with
  | global n =>
    refine ⟨fun e he => ?_, h.routines, h.locals⟩
    rcases OrderedMap.mem_put he with rfl | he
    · exact hd
    · exact h.globals e he
  | inside f n =>
    have hrows : (t.declare (.inside f n, kind, type)).rows = _ := rows_declareLocal t f n kind type
    -- every row is an earlier one or that of the function, which has one name more at most
    refine ⟨h.globals, ?_, ?_⟩ <;> rw [hrows] <;> intro row hrow
    · rcases OrderedMap.mem_put hrow with rfl | hrow
      · exact hclosed hd
      · exact h.routines row hrow
    · rcases OrderedMap.mem_put hrow with rfl | hrow
      · intro e he
        rcases OrderedMap.mem_put he with rfl | he
        · exact hd
        · exact h.row he
      · exact h.locals row hrow

end SymbolTable

/-! ### Tables that follow a renaming -/

/-- What is known of a declaration, with another owner. -/
def SymbolInfo.ownedBy (owner : Option String) (info : SymbolInfo) : SymbolInfo :=
  { info with owner := owner }

namespace Renaming

variable (r : Renaming)

/-- What a table lists, under a renaming. -/
def entry (e : Symbol × SymbolInfo) : Symbol × SymbolInfo :=
  (r.image e.1, e.2.ownedBy (r.image e.1).scope?)

/-- A global under a renaming. -/
def globalEntry (e : String × SymbolInfo) : String × SymbolInfo :=
  (r.newName (.global e.1), e.2.ownedBy none)

/-- The locals of a function under a renaming. -/
def localEntries (f : String) (es : List (String × SymbolInfo)) : List (String × SymbolInfo) :=
  es.map fun e => (r.newName (.inside f e.1), e.2.ownedBy (some (r.newName (.global f))))

/-- A table that lists the images of what another one lists, in the same order. -/
structure Follows (t u : SymbolTable) : Prop where
  globals : u.globals.entries = t.globals.entries.map r.globalEntry
  rows : u.rows = t.rows.map fun row => (r.newName (.global row.1), r.localEntries row.1 row.2)

variable {r}

theorem follows_empty : r.Follows .empty .empty := ⟨rfl, rfl⟩

theorem Follows.symbols {t u : SymbolTable} (h : r.Follows t u) :
    u.symbols = t.symbols.map r.entry := by
  rw [SymbolTable.symbols_eq, SymbolTable.symbols_eq, h.globals, h.rows, List.map_append,
    List.map_map, List.map_map, List.flatMap_map, List.map_flatMap]
  congr 1
  refine List.flatMap_congr fun row _ => ?_
  rw [localEntries, List.map_map, List.map_map]
  rfl

section Declaring

variable {P : Symbol → Prop} (hclosed : ∀ {f n}, P (.inside f n) → P (.global f))
  (hdistinct : ∀ {s s'}, P s → P s' → r.image s = r.image s' → s = s')

include hclosed hdistinct

/-- A declaration and its image keep tables that follow the renaming so: both take the place of an
earlier declaration, or neither does. -/
theorem Follows.declare {t u : SymbolTable} (h : r.Follows t u) (ht : t.Within P) {d : Declaration}
    (hd : P d.1) : r.Follows (t.declare d) (u.declare (r.image d.1, d.2)) := by
  obtain ⟨symbol, kind, type⟩ := d
  cases symbol with
  | global n =>
    refine ⟨?_, h.rows⟩
    show OrderedMap.put _ _ u.globals.entries = (OrderedMap.put _ _ t.globals.entries).map _
    rw [h.globals]
    -- a global with the new name of this one is this one
    refine (OrderedMap.map_put (σ := fun n => r.newName (.global n))
      (g := fun _ => SymbolInfo.ownedBy none) (v := ⟨kind, type, none⟩) fun e he heq => ?_).symm
    cases hdistinct (ht.globals e he) hd (congrArg Symbol.global heq)
    rfl
  | inside f n =>
    refine ⟨h.globals, ?_⟩
    have hroutine : ∀ row ∈ t.rows, r.newName (.global row.1) = r.newName (.global f) →
        row.1 = f := by
      intro row hrow heq
      cases hdistinct (ht.routines row hrow) (hclosed hd) (congrArg Symbol.global heq)
      rfl
    have hlocal : ∀ e ∈ t.row f, r.newName (.inside f e.1) = r.newName (.inside f n) →
        e.1 = n := by
      intro e he heq
      cases hdistinct (ht.row he) hd (congrArg (Symbol.inside (r.newName (.global f))) heq)
      rfl
    have hrow : u.row (r.newName (.global f)) = r.localEntries f (t.row f) := by
      rw [SymbolTable.row, h.rows, lookup_map_of_injOn (σ := fun f => r.newName (.global f))
        (g := r.localEntries) hroutine, SymbolTable.row]
      cases t.rows.lookup f <;> rfl
    -- the new local in its row, and the row among the others
    have hput : OrderedMap.put (r.newName (.inside f n))
          ⟨kind, type, some (r.newName (.global f))⟩ (r.localEntries f (t.row f))
        = r.localEntries f (OrderedMap.put n ⟨kind, type, some f⟩ (t.row f)) :=
      (OrderedMap.map_put (σ := fun n => r.newName (.inside f n))
        (g := fun _ => SymbolInfo.ownedBy (some (r.newName (.global f))))
        (v := ⟨kind, type, some f⟩) hlocal).symm
    show (u.declareLocal (r.newName (.global f)) (r.newName (.inside f n)) kind type).rows
      = (t.declareLocal f n kind type).rows.map _
    rw [SymbolTable.rows_declareLocal, SymbolTable.rows_declareLocal, hrow, h.rows, hput]
    exact (OrderedMap.map_put (σ := fun f => r.newName (.global f)) (g := r.localEntries)
      hroutine).symm

/-- Declarations and their images, made one after the other, keep tables that follow the renaming
so. -/
theorem Follows.declareAll {ds : List Declaration} (hds : ∀ d ∈ ds, P d.1) {t u : SymbolTable}
    (h : r.Follows t u) (ht : t.Within P) :
    r.Follows (ds.foldl SymbolTable.declare t)
      ((ds.map fun d => (r.image d.1, d.2)).foldl SymbolTable.declare u) := by
  induction ds generalizing t u with
  | nil => exact h
  | cons d ds ih =>
    have hd := hds d List.mem_cons_self
    rw [List.map_cons, List.foldl_cons, List.foldl_cons]
    exact ih (fun d' hd' => hds d' (List.mem_cons_of_mem _ hd'))
      (h.declare hclosed hdistinct ht hd) (ht.declare hd hclosed)

end Declaring

/-! ### Short names in the same order -/

theorem assign_map {g : Symbol × SymbolInfo → Symbol × SymbolInfo}
    (hkind : ∀ e, (g e).2.kind = e.2.kind) (supply : Supply) (ds : List (Symbol × SymbolInfo)) :
    assign supply (ds.map g) = (assign supply ds).map fun e =>
      ⟨(g (e.symbol, e.info)).1, (g (e.symbol, e.info)).2, e.short⟩ := by
  induction ds generalizing supply with
  | nil => rfl
  | cons d ds ih => rw [List.map_cons, assign_cons, assign_cons, List.map_cons, ih, hkind]

/-- Tables that list declarations of the same kinds in the same order give the same short names, if
what keeps its name is named alike. -/
theorem ofTable_map {t u : SymbolTable} {g : Symbol × SymbolInfo → Symbol × SymbolInfo}
    (hsymbols : u.symbols = t.symbols.map g) (hkind : ∀ e, (g e).2.kind = e.2.kind)
    (hkeeps : ∀ e ∈ t.symbols,
      isPreserved (g e).1.name e.2.kind = isPreserved e.1.name e.2.kind)
    (hkept : ∀ e ∈ t.symbols, isPreserved e.1.name e.2.kind = true → (g e).1.name = e.1.name) :
    ofTable u = (ofTable t).map fun e =>
      ⟨(g (e.symbol, e.info)).1, (g (e.symbol, e.info)).2, e.short⟩ := by
  -- a declaration and its image fall on the same side, so both sides keep their order
  have hfilter : ∀ b : Bool,
      u.symbols.filter (fun e => isPreserved e.1.name e.2.kind == b)
        = (t.symbols.filter fun e => isPreserved e.1.name e.2.kind == b).map g := by
    intro b
    rw [hsymbols, List.filter_map]
    congr 1
    refine List.filter_congr fun e he => ?_
    rw [Function.comp_apply, hkind, hkeeps e he]
  have hkeepers : u.symbols.filter (fun e => isPreserved e.1.name e.2.kind)
      = (t.symbols.filter fun e => isPreserved e.1.name e.2.kind).map g := by
    simpa using hfilter true
  have hothers : u.symbols.filter (fun e => !isPreserved e.1.name e.2.kind)
      = (t.symbols.filter fun e => !isPreserved e.1.name e.2.kind).map g := by
    simpa using hfilter false
  have hnames : (u.symbols.filter fun e => isPreserved e.1.name e.2.kind).map (·.1.name)
      = (t.symbols.filter fun e => isPreserved e.1.name e.2.kind).map (·.1.name) := by
    rw [hkeepers, List.map_map]
    refine List.map_congr_left fun e he => ?_
    obtain ⟨he, hpreserved⟩ := List.mem_filter.mp he
    exact hkept e he hpreserved
  rw [ofTable, ofTable, hnames, hothers, assign_map hkind]

/-- Where symbols are told apart, what is found under a new symbol is what was found under the
symbol. -/
theorem short?_map {r' : Renaming} {σ : Symbol → Symbol} {info : Renamed → SymbolInfo} {s : Symbol}
    (h : ∀ e ∈ r', σ e.symbol = σ s → e.symbol = s) :
    short? (r'.map fun e => ⟨σ e.symbol, info e, e.short⟩) (σ s) = short? r' s := by
  induction r' with
  | nil => rfl
  | cons e r' ih =>
    have htail := ih fun e' he => h e' (List.mem_cons_of_mem _ he)
    simp only [short?, List.map_cons, List.find?_cons] at htail ⊢
    by_cases hs : e.symbol = s
    · simp [hs]
    · have hσ : σ e.symbol ≠ σ s := fun heq => hs (h e List.mem_cons_self heq)
      simpa [hs, hσ] using htail

/-! ### Renamings of private declarations -/

/-- Whether a renaming gives private names to private declarations of a program, keeps the names of all
others, and tells declarations apart. -/
structure Proper (r : Renaming) (p : Program) : Prop where
  keeps : r.Keeps (.ofProgram p)
  hides : ∀ e ∈ (SymbolTable.ofProgram p).symbols, isPreserved e.1.name e.2.kind = false →
    isPreserved (r.newName e.1) e.2.kind = false
  distinct : ∀ e ∈ (SymbolTable.ofProgram p).symbols, ∀ e' ∈ (SymbolTable.ofProgram p).symbols,
    r.image e.1 = r.image e'.1 → e.1 = e'.1

instance (r : Renaming) (p : Program) : Decidable (r.Proper p) :=
  decidable_of_iff (r.Keeps (.ofProgram p) ∧
    (∀ e ∈ (SymbolTable.ofProgram p).symbols, isPreserved e.1.name e.2.kind = false →
      isPreserved (r.newName e.1) e.2.kind = false) ∧
    ∀ e ∈ (SymbolTable.ofProgram p).symbols, ∀ e' ∈ (SymbolTable.ofProgram p).symbols,
      r.image e.1 = r.image e'.1 → e.1 = e'.1)
    ⟨fun ⟨h₁, h₂, h₃⟩ => ⟨h₁, h₂, h₃⟩, fun h => ⟨h.keeps, h.hides, h.distinct⟩⟩

namespace Proper

variable {p : Program} (h : r.Proper p)

include h

theorem eq_of_image_eq {s s' : Symbol} (hs : s ∈ p.declared.map Prod.fst)
    (hs' : s' ∈ p.declared.map Prod.fst) (heq : r.image s = r.image s') : s = s' := by
  obtain ⟨info, hget⟩ := Option.isSome_iff_exists.mp (SymbolTable.get?_ofProgram_isSome.mpr hs)
  obtain ⟨info', hget'⟩ := Option.isSome_iff_exists.mp (SymbolTable.get?_ofProgram_isSome.mpr hs')
  exact h.distinct (s, info) (SymbolTable.mem_symbols.mpr hget) (s', info')
    (SymbolTable.mem_symbols.mpr hget') heq

/-- The table of the renamed program lists the images of what the table of the program lists. -/
theorem symbols_rename : (SymbolTable.ofProgram (p.rename r (.ofProgram p))).symbols
    = (SymbolTable.ofProgram p).symbols.map r.entry := by
  rw [SymbolTable.ofProgram_eq (p.rename r _), Program.declared_rename h.keeps,
    SymbolTable.ofProgram_eq p]
  refine (Follows.declareAll Program.global_mem_declared h.eq_of_image_eq ?_ follows_empty
    (SymbolTable.within_empty _)).symbols
  exact fun d hd => List.mem_map_of_mem hd

/-- What keeps its name has it as its new name. -/
theorem newName_of_kept {e : Symbol × SymbolInfo} (he : e ∈ (SymbolTable.ofProgram p).symbols)
    (hkept : isPreserved e.1.name e.2.kind = true) : r.newName e.1 = e.1.name := by
  rw [newName, h.keeps e he hkept, Option.getD_none]

/-- The renamed program gives the same short names, each to the image of what got it in the
program. -/
theorem renaming_rename : (p.rename r (.ofProgram p)).renaming
    = p.renaming.map fun e => ⟨r.image e.symbol, (r.entry (e.symbol, e.info)).2, e.short⟩ := by
  refine ofTable_map h.symbols_rename (fun _ => rfl) (fun e he => ?_) fun e he hkept => ?_
  · show isPreserved (r.image e.1).name e.2.kind = _
    rw [name_image]
    cases hkept : isPreserved e.1.name e.2.kind with
    | true => rw [h.newName_of_kept he hkept, hkept]
    | false => exact h.hides e he hkept
  · show (r.image e.1).name = e.1.name
    rw [name_image, h.newName_of_kept he hkept]

/-- A declaration and its image get the same short name, or none. -/
theorem short?_image {s : Symbol} {info : SymbolInfo}
    (hget : (SymbolTable.ofProgram p).get? s = some info) :
    (p.rename r (.ofProgram p)).renaming.short? (r.image s) = p.renaming.short? s := by
  rw [h.renaming_rename]
  refine short?_map fun e he heq => ?_
  exact h.distinct (e.symbol, e.info) (SymbolTable.mem_symbols.mpr (mem_ofTable he).1) (s, info)
    (SymbolTable.mem_symbols.mpr hget) heq

/-- **A declaration and its image get the same new name.** -/
theorem newName_image {s : Symbol} {info : SymbolInfo}
    (hget : (SymbolTable.ofProgram p).get? s = some info) :
    (p.rename r (.ofProgram p)).renaming.newName (r.image s) = p.renaming.newName s := by
  rw [newName, newName, h.short?_image hget]
  cases hkept : isPreserved s.name info.kind with
  | true =>
    rw [name_image, h.newName_of_kept (SymbolTable.mem_symbols.mpr hget) hkept]
  | false =>
    obtain ⟨e, -, -, hshort⟩ := exists_short?_of_not_kept hget hkept
    rw [hshort, Option.getD_some, Option.getD_some]

end Proper

end Renaming

end ContractBasic
