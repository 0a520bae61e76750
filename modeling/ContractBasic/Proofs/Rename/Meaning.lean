/-
What renamed programs refer to.

A program with short names for its own private declarations declares the images of what the program
declared, in the same order.  New names tell declarations apart, so a name that meant a declaration
means its image afterwards: no other local of its function stands in front of it, and a call that was
found in capitals only is not found before.

* `Renaming.Keeps`, `Program.declared_rename` — renamings that keep what keeps its name, and the
  declarations of a program under them
* `Program.resolve?_minified`, `Program.resolveCall?_minified` — what names and calls mean there
* `Renaming.Faithful` — a program and what it becomes under a renaming that keeps all meanings
* `Program.checkNames_minified` — the check of names passes again under short names
* `Program.faithful_minify` — short names keep all meanings
-/
import ContractBasic.Proofs.Program.Names
import ContractBasic.Proofs.Rename.NewNames
import Mathlib.Data.List.Forall2

namespace ContractBasic

/-! ### Spellings after meanings -/

namespace Renaming

theorem spellName_of_resolve? {r : Renaming} {t : SymbolTable} {f n : String} {s : Symbol}
    {info : SymbolInfo} (h : t.resolve? f n = some (s, info)) : r.spellName t f n = r.newName s := by
  rw [spellName, h, newName, SymbolTable.name_of_resolve? h]
  rfl

/-- What means nothing is written as before. -/
theorem spellName_of_resolve?_eq_none {r : Renaming} {t : SymbolTable} {f n : String}
    (h : t.resolve? f n = none) : r.spellName t f n = n := by
  rw [spellName, h]
  rfl

theorem spellCall_of_resolveCall? {r : Renaming} {t : SymbolTable} {f n : String} {s : Symbol}
    {info : SymbolInfo} (h : t.resolveCall? f n = some (s, info)) :
    r.spellCall t f n = (r.short? s).getD n := by
  rw [spellCall, h]
  rfl

end Renaming

/-! ### Declarations -/

namespace Renaming

/-- Whether a renaming has no short names for the declarations of a table that keep their names. -/
def Keeps (r : Renaming) (t : SymbolTable) : Prop :=
  ∀ e ∈ t.symbols, isPreserved e.1.name e.2.kind = true → r.short? e.1 = none

instance (r : Renaming) (t : SymbolTable) : Decidable (r.Keeps t) :=
  inferInstanceAs (Decidable (∀ e ∈ t.symbols, isPreserved e.1.name e.2.kind = true →
    r.short? e.1 = none))

theorem keeps_ofTable (t : SymbolTable) : (ofTable t).Keeps t :=
  fun _ he hkept => short?_of_kept (SymbolTable.mem_symbols.mp he) hkept

/-- Declarations that keep their names stay what they are. -/
theorem Keeps.image {r : Renaming} {p : Program} (hr : r.Keeps (.ofProgram p)) {s : Symbol}
    {info : SymbolInfo} (hget : (SymbolTable.ofProgram p).get? s = some info)
    (hkept : isPreserved s.name info.kind = true) : r.image s = s := by
  have hshort := hr (s, info) (SymbolTable.mem_symbols.mpr hget) hkept
  rw [eq_global_of_kept hget hkept] at hshort ⊢
  rw [Renaming.image, newName, show r.short? (.global s.name) = none from hshort]
  rfl

theorem isPreserved_native : ∀ n ∈ Native.catalog, isPreserved n.name .routine = true := by
  decide +kernel

/-- Under the name of a public function everything global keeps its name. -/
theorem isPreserved_global {p : Program} {n : String} {info : SymbolInfo}
    (hget : (SymbolTable.ofProgram p).get? (.global n) = some info)
    (hshown : isPreserved n .routine = true) : isPreserved n info.kind = true := by
  have hkind : info.kind.isCallable = true :=
    Program.isCallable_of_mem_declared (SymbolTable.mem_declared_of_get? hget).1
  cases hk : info.kind with
  | var | param =>
    rw [hk] at hkind
    cases hkind
  | routine => exact hshown
  | native => rfl

theorem get?_native_isSome (p : Program) {n : Native} (hn : n ∈ Native.catalog) :
    ((SymbolTable.ofProgram p).get? (.global n.name)).isSome :=
  SymbolTable.get?_ofProgram_of_mem (d := (.global n.name, .native, n.returns.getD .unknown))
    (List.mem_append_left _ (List.mem_append_left _ (List.mem_map_of_mem hn)))

/-- A native keeps its name, also where a function of the program takes its place. -/
theorem Keeps.image_native {r : Renaming} {p : Program} (hr : r.Keeps (.ofProgram p)) {n : Native}
    (hn : n ∈ Native.catalog) : r.image (.global n.name) = .global n.name := by
  obtain ⟨info, hget⟩ := Option.isSome_iff_exists.mp (get?_native_isSome p hn)
  exact hr.image hget (isPreserved_global hget (isPreserved_native n hn))

end Renaming

namespace Program

/-- A program with short names for its own private declarations. -/
abbrev minified (p : Program) : Program := (p.minify (.ofProgram p)).1

theorem minified_eq_spell (p : Program) :
    p.minified = p.spell (p.renaming.spelling (.ofProgram p)) :=
  rename_eq_spell _ _ _

theorem image_of_kept {p : Program} {s : Symbol} {info : SymbolInfo}
    (hget : (SymbolTable.ofProgram p).get? s = some info)
    (hkept : isPreserved s.name info.kind = true) : p.renaming.image s = s :=
  (Renaming.keeps_ofTable _).image hget hkept

theorem declared_routine {p : Program} (r : Renaming) {f : Routine} (hf : f ∈ p.routines) :
    (f.spell (r.spelling (.ofProgram p))).declared
      = f.declared.map fun d => (r.image d.1, d.2) := by
  rw [Routine.declared, Routine.declared, SymbolTable.declarations_spell, List.map_map,
    List.map_map]
  refine List.map_congr_left fun d hd => ?_
  obtain ⟨info, hget⟩ := Option.isSome_iff_exists.mp
    (SymbolTable.get?_declaration_isSome hf hd)
  have hspell : r.spellName (.ofProgram p) f.name d.1 = r.newName (.inside f.name d.1) :=
    Renaming.spellName_of_resolve? (SymbolTable.resolve?_of_local hget)
  show (Symbol.inside _ (r.spellName (.ofProgram p) f.name d.1), d.2) = _
  rw [hspell]
  rfl

/-- Under a renaming that keeps what keeps its name, declarations become their images, each in its
place. -/
theorem declared_rename {p : Program} {r : Renaming} (hr : r.Keeps (.ofProgram p)) :
    (p.rename r (.ofProgram p)).declared = p.declared.map fun d => (r.image d.1, d.2) := by
  have hnatives : Native.declared.map (fun d => (r.image d.1, d.2)) = Native.declared := by
    rw [Native.declared, List.map_map]
    refine List.map_congr_left fun n hn => ?_
    show (r.image (.global n.name), _) = _
    rw [hr.image_native hn]
  rw [rename_eq_spell, declared, declared, List.map_append, List.map_append, hnatives, spell,
    List.map_map, List.map_map, List.flatMap_map, List.map_flatMap,
    List.flatMap_congr fun f hf => declared_routine r hf]
  rfl

theorem declared_minified (p : Program) :
    p.minified.declared = p.declared.map fun d => (p.renaming.image d.1, d.2) :=
  declared_rename (Renaming.keeps_ofTable _)

/-- The functions that places stand in are declared. -/
theorem isSome_of_mem_places {p : Program} {a : String × String} (ha : a ∈ p.places) :
    ((SymbolTable.ofProgram p).get? (.global a.1)).isSome := by
  rcases List.mem_append.mp ha with ha | ha
  · obtain ⟨r, hr, ha⟩ := List.mem_flatMap.mp ha
    obtain ⟨d, -, rfl⟩ := List.mem_map.mp ha
    exact SymbolTable.get?_routine_isSome hr
  · obtain ⟨r, hr, ha⟩ := List.mem_flatMap.mp ha
    obtain ⟨n, -, rfl⟩ := List.mem_map.mp ha
    exact SymbolTable.get?_routine_isSome hr

/-- A place that means nothing is a target. -/
theorem mem_targets_of_resolve?_eq_none {p : Program} {a : String × String} (ha : a ∈ p.places)
    (hnone : (SymbolTable.ofProgram p).resolve? a.1 a.2 = none) : a ∈ p.targets := by
  rcases List.mem_append.mp ha with ha | ha
  · obtain ⟨r, hr, ha⟩ := List.mem_flatMap.mp ha
    obtain ⟨d, hd, rfl⟩ := List.mem_map.mp ha
    have hsome := SymbolTable.get?_declaration_isSome hr hd
    rw [show (SymbolTable.ofProgram p).get? (.inside r.name d.1) = none from
      (SymbolTable.resolve?_eq_none.mp hnone).1] at hsome
    cases hsome
  · exact ha

/-! ### What names mean -/

/-- What is known of a declaration is known of its image. -/
theorem get?_image {p : Program} {s : Symbol} {info : SymbolInfo}
    (hget : (SymbolTable.ofProgram p).get? s = some info) :
    (SymbolTable.ofProgram p.minified).get? (p.renaming.image s)
      = some ((p.renaming.image s).info (info.kind, info.type)) := by
  -- other symbols have other images, so the last declaration of a symbol stays the last one
  have hinj : ∀ d ∈ p.declared.reverse, p.renaming.image d.1 = p.renaming.image s → d.1 = s := by
    intro d hd heq
    obtain ⟨info', hget'⟩ := Option.isSome_iff_exists.mp
      (SymbolTable.get?_ofProgram_of_mem (List.mem_reverse.mp hd))
    exact Renaming.image_injective hget' hget heq
  rw [SymbolTable.get?_ofProgram] at hget ⊢
  obtain ⟨d, hlookup, rfl⟩ := Option.map_eq_some_iff.mp hget
  rw [declared_minified, ← List.map_reverse, lookup_map_of_injOn (g := fun _ d => d) hinj,
    hlookup]
  rfl

/-- A program with short names declares nothing but images. -/
theorem exists_image_of_get? {p : Program} {s' : Symbol} {info' : SymbolInfo}
    (hget : (SymbolTable.ofProgram p.minified).get? s' = some info') :
    ∃ s info, (SymbolTable.ofProgram p).get? s = some info ∧ s' = p.renaming.image s := by
  have hmem := (SymbolTable.mem_declared_of_get? hget).1
  rw [declared_minified] at hmem
  obtain ⟨d, hd, heq⟩ := List.mem_map.mp hmem
  obtain ⟨info, hget'⟩ := Option.isSome_iff_exists.mp (SymbolTable.get?_ofProgram_of_mem hd)
  exact ⟨d.1, info, hget', (congrArg Prod.fst heq).symm⟩

/-- A name that means a declaration means its image under its new name. -/
theorem resolve?_minified {p : Program} {f n : String} {s : Symbol} {info : SymbolInfo}
    (h : (SymbolTable.ofProgram p).resolve? f n = some (s, info)) :
    (SymbolTable.ofProgram p.minified).resolve? (p.renaming.newName (.global f))
        (p.renaming.newName s)
      = some (p.renaming.image s, (p.renaming.image s).info (info.kind, info.type)) := by
  obtain ⟨hget, hcases⟩ := SymbolTable.resolve?_cases h
  rcases hcases with rfl | ⟨rfl, -⟩
  · exact SymbolTable.resolve?_of_local (get?_image hget)
  · refine SymbolTable.resolve?_of_global ?_ (get?_image hget)
    -- a local in front of it would be the image of a declaration with the same new name
    rw [Option.eq_none_iff_forall_ne_some]
    intro info' hlocal
    obtain ⟨s₀, info₀, hget₀, heq⟩ := exists_image_of_get? hlocal
    have hname : p.renaming.newName s₀ = p.renaming.newName (.global n) := by
      rw [← Renaming.name_image, ← heq]
      rfl
    cases Renaming.newName_injective hget₀ hget hname
    cases heq

/-- A name that means nothing means nothing afterwards, if capitals make it a name that is kept. -/
theorem resolve?_minified_eq_none {p : Program} {f n : String} {s : Symbol} {info : SymbolInfo}
    (hnone : (SymbolTable.ofProgram p).resolve? f n = none)
    (hget : (SymbolTable.ofProgram p).get? s = some info)
    (hkept : isPreserved s.name info.kind = true) (hupper : s.name = Text.upcase n) :
    (SymbolTable.ofProgram p.minified).resolve? (p.renaming.newName (.global f)) n = none := by
  rw [Option.eq_none_iff_forall_ne_some]
  rintro ⟨s', info'⟩ hsome
  obtain ⟨s₀, info₀, hget₀, rfl⟩ := exists_image_of_get? (SymbolTable.get?_of_resolve? hsome)
  have hname : p.renaming.newName s₀ = n := by
    rw [← Renaming.name_image]
    exact SymbolTable.name_of_resolve? hsome
  cases hkept₀ : isPreserved s₀.name info₀.kind with
  | true =>
    -- it would have meant the same before
    rw [Renaming.newName_of_kept hget₀ hkept₀] at hname
    rw [Renaming.eq_global_of_kept hget₀ hkept₀, hname] at hget₀
    rw [(SymbolTable.resolve?_eq_none.mp hnone).2] at hget₀
    cases hget₀
  | false =>
    -- a short name in capitals is no name that is kept
    obtain ⟨e, he, -, hshort⟩ := Renaming.exists_short?_of_not_kept hget₀ hkept₀
    rw [← hname, Renaming.newName_of_short? hshort] at hupper
    refine Renaming.short_ne_toLower he hget hkept ?_
    rw [hupper, Renaming.toLower_upcase_short he]

/-- A call that means a declaration means its image under its new spelling. -/
theorem resolveCall?_minified {p : Program} {f n : String} {s : Symbol} {info : SymbolInfo}
    (h : (SymbolTable.ofProgram p).resolveCall? f n = some (s, info)) :
    (SymbolTable.ofProgram p.minified).resolveCall? (p.renaming.newName (.global f))
        (p.renaming.spellCall (.ofProgram p) f n)
      = some (p.renaming.image s, (p.renaming.image s).info (info.kind, info.type)) := by
  rw [Renaming.spellCall_of_resolveCall? h]
  rw [SymbolTable.resolveCall?] at h ⊢
  -- a call means what it names, or else the function that is named by its capitals
  cases hexact : (SymbolTable.ofProgram p).resolve? f n with
  | some e =>
    rw [hexact, Option.some_or] at h
    cases h
    have hspell : (p.renaming.short? s).getD n = p.renaming.newName s := by
      rw [Renaming.newName, SymbolTable.name_of_resolve? hexact]
    rw [hspell, resolve?_minified hexact, Option.some_or]
  | none =>
    rw [hexact, Option.none_or] at h
    have hmeaning := resolve?_minified h
    have hget := SymbolTable.get?_of_resolve? h
    have hupper := SymbolTable.name_of_resolve? h
    cases hkept : isPreserved s.name info.kind with
    | false =>
      -- the short name is written, and means the image by itself
      obtain ⟨e, -, -, hshort⟩ := Renaming.exists_short?_of_not_kept hget hkept
      rw [hshort, Option.getD_some, ← Renaming.newName_of_short? hshort, hmeaning, Option.some_or]
    | true =>
      -- the call is written as it was, which must mean nothing under short names either
      rw [Renaming.short?_of_kept hget hkept, Option.getD_none,
        resolve?_minified_eq_none hexact hget hkept hupper, Option.none_or, ← hupper]
      rwa [Renaming.newName_of_kept hget hkept] at hmeaning

end Program

/-! ### Uses -/

namespace Renaming

/-- A node in its function and the same node after a renaming: what it refers to before becomes what
it refers to after, and what keeps its name is written as before. -/
inductive SameUse (r : Renaming) (t u : SymbolTable) :
    String × Expression → String × Expression → Prop
  | value (f : String) (l : Literal) :
    SameUse r t u (f, .value l) (r.newName (.global f), .value l)
  | name {f n n' : String} {s : Symbol} {info : SymbolInfo}
    (before : t.resolve? f n = some (s, info))
    (after : u.resolve? (r.newName (.global f)) n'
      = some (r.image s, (r.image s).info (info.kind, info.type)))
    (kept : isPreserved s.name info.kind = true → n' = n) :
    SameUse r t u (f, .name n) (r.newName (.global f), .name n')
  | call {f n n' : String} {s : Symbol} {info : SymbolInfo} {args args' : List Expression}
    (before : t.resolveCall? f n = some (s, info))
    (after : u.resolveCall? (r.newName (.global f)) n'
      = some (r.image s, (r.image s).info (info.kind, info.type)))
    (kept : isPreserved s.name info.kind = true → n' = n)
    (length : args'.length = args.length) :
    SameUse r t u (f, .call n args) (r.newName (.global f), .call n' args')
  | operation (f : String) (o : Operator) (type : ValueType) {operands operands' : List Expression}
    (length : operands'.length = operands.length) :
    SameUse r t u (f, .operation o operands type)
      (r.newName (.global f), .operation o operands' type)

/-- What passes the check of names passes it after the renaming. -/
theorem SameUse.checkUse {r : Renaming} {t u : SymbolTable} {a b : String × Expression}
    (h : SameUse r t u a b) (hcheck : t.checkUse a.1 a.2 = .ok ()) : u.checkUse b.1 b.2 = .ok () := by
  cases h with
  | value f l => rfl
  | name before after kept =>
    obtain ⟨s, info, hmeaning, hkind⟩ := SymbolTable.checkUse_name_eq_ok.mp hcheck
    rw [before] at hmeaning
    cases hmeaning
    exact SymbolTable.checkUse_name_eq_ok.mpr ⟨_, _, after, hkind⟩
  | call before after kept length =>
    obtain ⟨s, info, hmeaning, hkind⟩ := SymbolTable.checkUse_call_eq_ok.mp hcheck
    rw [before] at hmeaning
    cases hmeaning
    exact SymbolTable.checkUse_call_eq_ok.mpr ⟨_, _, after, hkind⟩
  | operation f o type length => rfl

/-- A program, and what it becomes under a renaming that keeps what everything refers to. -/
structure Faithful (r : Renaming) (p q : Program) : Prop where
  /-- Nothing but identifiers differs. -/
  anonymous : q.anonymous = p.anonymous
  /-- Declarations become their images, each in its place. -/
  declared : q.declared = p.declared.map fun d => (r.image d.1, d.2)
  /-- Images tell declarations apart. -/
  injective : ∀ d ∈ p.declared, ∀ e ∈ p.declared, r.image d.1 = r.image e.1 → d.1 = e.1
  /-- Natives and public functions keep their names. -/
  kept : ∀ s info, (SymbolTable.ofProgram p).get? s = some info →
    isPreserved s.name info.kind = true → r.image s = s
  /-- Every name and every call in an expression refers to the image of what it referred to. -/
  uses : List.Forall₂ (SameUse r (.ofProgram p) (.ofProgram q)) p.nodes q.nodes
  /-- A name that is assigned to and means what keeps its name is written as before. -/
  targets : List.Forall₂ (fun a b => b.1 = r.newName (.global a.1) ∧
    ∀ s info, (SymbolTable.ofProgram p).resolve? a.1 a.2 = some (s, info) →
      isPreserved s.name info.kind = true → b.2 = a.2) p.targets q.targets

end Renaming

namespace Program

/-- A node that passes the check of names refers to the same under short names. -/
theorem sameUse_minified {p : Program} {f : String} {e : Expression}
    (h : (SymbolTable.ofProgram p).checkUse f e = .ok ()) :
    Renaming.SameUse p.renaming (.ofProgram p) (.ofProgram p.minified) (f, e)
      (p.renaming.newName (.global f), e.spell (p.renaming.spellName (.ofProgram p) f)
        (p.renaming.spellCall (.ofProgram p) f)) := by
  cases e with
  | value l =>
    rw [Expression.spell_value]
    exact .value f l
  | name n =>
    obtain ⟨s, info, hmeaning, -⟩ := SymbolTable.checkUse_name_eq_ok.mp h
    rw [Expression.spell_name, Renaming.spellName_of_resolve? hmeaning]
    -- what keeps its name is spelled as before
    refine .name hmeaning (resolve?_minified hmeaning) fun hkept => ?_
    rw [Renaming.newName_of_kept (SymbolTable.get?_of_resolve? hmeaning) hkept,
      SymbolTable.name_of_resolve? hmeaning]
  | call n args =>
    obtain ⟨s, info, hmeaning, -⟩ := SymbolTable.checkUse_call_eq_ok.mp h
    rw [Expression.spell_call]
    refine .call hmeaning (resolveCall?_minified hmeaning) ?_ (List.length_map _)
    intro hkept
    rw [Renaming.spellCall_of_resolveCall? hmeaning,
      Renaming.short?_of_kept (SymbolTable.get?_of_resolveCall? hmeaning) hkept, Option.getD_none]
  | operation o operands type =>
    rw [Expression.spell_operation]
    exact .operation f o type (List.length_map _)

theorem nodes_minified (p : Program) : p.minified.nodes = p.nodes.map fun n =>
    (p.renaming.newName (.global n.1), n.2.spell (p.renaming.spellName (.ofProgram p) n.1)
      (p.renaming.spellCall (.ofProgram p) n.1)) := by
  rw [minified_eq_spell, nodes_spell]
  rfl

/-- Every node of a program that passes the check of names refers to the same under short names. -/
theorem sameUses_minified {p : Program} (h : p.checkNames (.ofProgram p) = .ok ()) :
    List.Forall₂ (Renaming.SameUse p.renaming (.ofProgram p) (.ofProgram p.minified))
      p.nodes p.minified.nodes := by
  rw [nodes_minified, List.forall₂_map_right_iff, List.forall₂_same]
  exact fun n hn => sameUse_minified (checkNames_eq_ok.mp h n hn)

/-- A program that passes the check of names passes it under short names. -/
theorem checkNames_minified {p : Program} (h : p.checkNames (.ofProgram p) = .ok ()) :
    p.minified.checkNames (.ofProgram p.minified) = .ok () := by
  have hchecks := checkNames_eq_ok.mp h
  rw [checkNames_eq_ok]
  intro b hb
  rw [nodes_minified] at hb
  obtain ⟨a, ha, rfl⟩ := List.mem_map.mp hb
  exact (sameUse_minified (hchecks a ha)).checkUse (hchecks a ha)

/-- The names that are assigned to, each spelled after what it means in its function. -/
theorem targets_minified (p : Program) :
    p.minified.targets = p.targets.map fun a =>
      (p.renaming.newName (.global a.1), p.renaming.spellName (.ofProgram p) a.1 a.2) := by
  rw [minified_eq_spell, targets_spell]
  rfl

/-- **Short names keep what everything refers to.**  Nothing but identifiers changes; declarations
become their images, which tell them apart; every name and every call refers to the image of what it
referred to, and is written as before if that keeps its name; and the check of names passes again. -/
theorem faithful_minify {p : Program} (h : p.checkNames (.ofProgram p) = .ok ()) :
    Renaming.Faithful (.ofTable (.ofProgram p)) p (p.minify (.ofProgram p)).1 ∧
      (p.minify (.ofProgram p)).1.checkNames (.ofProgram (p.minify (.ofProgram p)).1) = .ok () := by
  refine ⟨⟨?_, declared_minified p, ?_, fun s info => image_of_kept, sameUses_minified h, ?_⟩,
    checkNames_minified h⟩
  · -- spelling replaces identifiers and nothing else
    show p.minified.anonymous = p.anonymous
    rw [minified_eq_spell, anonymous_spell]
  · intro d hd e he
    obtain ⟨info, hget⟩ := Option.isSome_iff_exists.mp (SymbolTable.get?_ofProgram_of_mem hd)
    obtain ⟨info', hget'⟩ := Option.isSome_iff_exists.mp (SymbolTable.get?_ofProgram_of_mem he)
    exact Renaming.image_injective hget hget'
  · show List.Forall₂ _ p.targets p.minified.targets
    rw [targets_minified, List.forall₂_map_right_iff, List.forall₂_same]
    intro a _
    -- a target is spelled after what it means, and what is kept is spelled by its own name
    refine ⟨rfl, fun s info hmeaning hkept => ?_⟩
    show p.renaming.spellName (.ofProgram p) a.1 a.2 = a.2
    rw [Renaming.spellName_of_resolve? hmeaning,
      Renaming.newName_of_kept (SymbolTable.get?_of_resolve? hmeaning) hkept,
      SymbolTable.name_of_resolve? hmeaning]

/-- A program in which spellings cross: two functions have one name and share their locals, a variable
hides a parameter, a private function is spelled like a native in small letters, a public one like
a short name in capitals, and calls reach natives and public functions in small letters. -/
def crossed : Program where
  headers := []
  routines := [
    ⟨"Initialize", .uint64, [⟨"x", .string⟩],
      [⟨10, .dim "x" .uint64⟩, ⟨10, .dim "F1" .uint64⟩,
        ⟨20, .assign "x" (.call "strlen" [.call "f0" [.name "x"]])⟩,
        ⟨30, .assign "F1" (.call "Strlen" [.name "F1"])⟩,
        ⟨40, .evaluate (.call "store" [.value (.string "x"), .call "twice" [.name "x"]])⟩,
        ⟨50, .result (.name "F1")⟩],
      []⟩,
    ⟨"F0", .uint64, [⟨"v0", .uint64⟩], [⟨10, .result (.name "v0")⟩], []⟩,
    ⟨"strlen", .uint64, [⟨"x", .uint64⟩], [⟨10, .result (.name "x")⟩], []⟩,
    ⟨"twice", .uint64, [⟨"x", .uint64⟩], [⟨10, .result (.name "y")⟩], []⟩,
    ⟨"twice", .uint64, [⟨"y", .uint64⟩], [⟨10, .result (.call "f0" [.name "x"])⟩], []⟩]

theorem faithful_minify_crossed : crossed.checkNames (.ofProgram crossed) = .ok () ∧
    Renaming.Faithful (.ofTable (.ofProgram crossed)) crossed
      (crossed.minify (.ofProgram crossed)).1 ∧
    (crossed.minify (.ofProgram crossed)).1.checkNames
      (.ofProgram (crossed.minify (.ofProgram crossed)).1) = .ok () := by
  have h : crossed.checkNames (.ofProgram crossed) = .ok () := by decide +kernel
  exact ⟨h, faithful_minify h⟩

end Program

end ContractBasic
