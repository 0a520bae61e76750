/-
Assignments under short names.

What is assigned to need not be declared, and a target that means nothing is written as before.  The
supply of short names avoids the names that are kept, but not the spellings of such targets.  So a
short name may be the spelling of a target, and the assignment goes to what has this short name.

* `Program.AssignmentsKept` — targets keep their meanings, and different names stay different
* `Program.resolve?_minified_eq_none_iff` — which names mean nothing under short names
* `Program.assignmentsKept_iff` — assignments are kept exactly if no target that means nothing is
  spelled like a short name that its function sees
* `Program.not_assignmentsKept_strayTarget` — a program that was read and whose assignment is not kept
-/
import ContractBasic.Program.Read
import ContractBasic.Proofs.Rename.Meaning

namespace ContractBasic

/-- Whether a declaration can be meant in a function: it is global, or a local of the function. -/
def Symbol.IsVisible (f : String) (s : Symbol) : Prop := ∀ g ∈ s.scope?, g = f

namespace SymbolTable

/-- What a name means in a function is visible there. -/
theorem isVisible_of_resolve? {t : SymbolTable} {f n : String} {s : Symbol} {info : SymbolInfo}
    (h : t.resolve? f n = some (s, info)) : s.IsVisible f := by
  rcases (resolve?_cases h).2 with rfl | ⟨rfl, -⟩
  · rintro g ⟨⟩
    rfl
  · nofun

/-- What is visible in a function can be meant there by its name, if nothing hides it. -/
theorem resolve?_isSome_of_isVisible {t : SymbolTable} {f : String} {s : Symbol}
    (hs : s.IsVisible f) (hget : (t.get? s).isSome) : (t.resolve? f s.name).isSome := by
  obtain ⟨info, hget⟩ := Option.isSome_iff_exists.mp hget
  rw [Option.isSome_iff_ne_none, Ne, resolve?_eq_none]
  rintro ⟨hlocal, hglobal⟩
  cases s with
  | global n =>
    rw [show t.get? (.global n) = none from hglobal] at hget
    cases hget
  | inside g n =>
    obtain rfl : g = f := hs g rfl
    rw [show t.get? (.inside g n) = none from hlocal] at hget
    cases hget

end SymbolTable

namespace Program

/-! ### Names that mean nothing -/

/-- A function sees the same declarations before and after. -/
theorem isVisible_image {p : Program} {f : String} {s : Symbol} {info : SymbolInfo}
    (hf : ((SymbolTable.ofProgram p).get? (.global f)).isSome)
    (hget : (SymbolTable.ofProgram p).get? s = some info) :
    (p.renaming.image s).IsVisible (p.renaming.newName (.global f)) ↔ s.IsVisible f := by
  cases s with
  | global n => exact ⟨fun _ => nofun, fun _ => nofun⟩
  | inside g n =>
    constructor
    · intro h
      rintro _ ⟨⟩
      -- the two functions have one new name, and new names tell declarations apart
      have hname : p.renaming.newName (.global g) = p.renaming.newName (.global f) := h _ rfl
      obtain ⟨_, hf⟩ := Option.isSome_iff_exists.mp hf
      obtain ⟨_, hg⟩ := Option.isSome_iff_exists.mp (SymbolTable.get?_global_isSome hget)
      cases Renaming.newName_injective hg hf hname
      rfl
    · intro h
      rintro _ ⟨⟩
      rw [h g rfl]

/-- Under short names, a name means something exactly if it is the new name of something visible. -/
theorem resolve?_minified_isSome_iff {p : Program} {f n : String}
    (hf : ((SymbolTable.ofProgram p).get? (.global f)).isSome) :
    ((SymbolTable.ofProgram p.minified).resolve? (p.renaming.newName (.global f)) n).isSome ↔
      ∃ s info, (SymbolTable.ofProgram p).get? s = some info ∧ s.IsVisible f ∧
        p.renaming.newName s = n := by
  constructor
  · intro h
    -- what is meant under short names is declared there, so it is the image of a declaration
    obtain ⟨⟨s', info'⟩, h⟩ := Option.isSome_iff_exists.mp h
    obtain ⟨s, info, hget, rfl⟩ := exists_image_of_get? (SymbolTable.get?_of_resolve? h)
    refine ⟨s, info, hget, ?_, ?_⟩
    · exact (isVisible_image hf hget).mp (SymbolTable.isVisible_of_resolve? h)
    · rw [← Renaming.name_image]
      exact SymbolTable.name_of_resolve? h
  · rintro ⟨s, info, hget, hvisible, rfl⟩
    have hmeans := SymbolTable.resolve?_isSome_of_isVisible
      ((isVisible_image hf hget).mpr hvisible) (Option.isSome_of_eq_some (get?_image hget))
    rwa [Renaming.name_image] at hmeans

/-- A name that meant nothing means nothing under short names exactly if nothing visible has it as its
short name. -/
theorem resolve?_minified_eq_none_iff {p : Program} {f n : String}
    (hf : ((SymbolTable.ofProgram p).get? (.global f)).isSome)
    (hnone : (SymbolTable.ofProgram p).resolve? f n = none) :
    (SymbolTable.ofProgram p.minified).resolve? (p.renaming.newName (.global f)) n = none ↔
      ∀ s : Symbol, s.IsVisible f → p.renaming.short? s ≠ some n := by
  rw [← Option.not_isSome_iff_eq_none, resolve?_minified_isSome_iff hf]
  constructor
  · intro h s hvisible hshort
    obtain ⟨e, he, rfl, -⟩ := Renaming.exists_mem_of_short? hshort
    obtain ⟨hget, -⟩ := Renaming.mem_ofTable he
    exact h ⟨e.symbol, e.info, hget, hvisible, Renaming.newName_of_short? hshort⟩
  · rintro h ⟨s, info, hget, hvisible, rfl⟩
    cases hkept : isPreserved s.name info.kind with
    | true =>
      -- a name that is kept meant something before
      rw [Renaming.newName_of_kept hget hkept] at hnone
      have hmeans := SymbolTable.resolve?_isSome_of_isVisible hvisible
        (Option.isSome_of_eq_some hget)
      rw [hnone] at hmeans
      cases hmeans
    | false =>
      obtain ⟨e, -, -, hshort⟩ := Renaming.exists_short?_of_not_kept hget hkept
      exact h s hvisible (Renaming.newName_of_short? hshort ▸ hshort)

/-! ### Assignments -/

theorem places_minified (p : Program) :
    p.minified.places = p.places.map fun a =>
      (p.renaming.newName (.global a.1), p.renaming.spellName (.ofProgram p) a.1 a.2) := by
  rw [minified_eq_spell, places_spell]
  rfl

/-- Whether short names keep the assignments of a program. -/
structure AssignmentsKept (p : Program) : Prop where
  /-- A target means the image of what it meant, or nothing as before. -/
  meanings : List.Forall₂ (fun a b =>
    ((SymbolTable.ofProgram p.minified).resolve? b.1 b.2).map Prod.fst
      = ((SymbolTable.ofProgram p).resolve? a.1 a.2).map fun e => p.renaming.image e.1)
    p.targets p.minified.targets
  /-- Different names of one function stay different. -/
  distinct : ∀ a ∈ p.places.zip p.minified.places, ∀ b ∈ p.places.zip p.minified.places,
    a.1.1 = b.1.1 → a.2.2 = b.2.2 → a.1.2 = b.1.2

/-- Two places of one function with one new spelling were one, if no target that means nothing is a
short name. -/
theorem eq_of_spellName_eq {p : Program}
    (h : ∀ a ∈ p.targets, (SymbolTable.ofProgram p).resolve? a.1 a.2 = none →
      ∀ s : Symbol, s.IsVisible a.1 → p.renaming.short? s ≠ some a.2)
    {f m n : String} (hm : (f, m) ∈ p.places) (hn : (f, n) ∈ p.places)
    (heq : p.renaming.spellName (.ofProgram p) f m = p.renaming.spellName (.ofProgram p) f n) :
    m = n := by
  -- a place that means nothing keeps its spelling, which is no new name of what another place means
  have hfree : ∀ {k l : String} {s : Symbol} {info : SymbolInfo}, (f, k) ∈ p.places →
      (SymbolTable.ofProgram p).resolve? f k = none →
      (SymbolTable.ofProgram p).resolve? f l = some (s, info) →
      p.renaming.newName s ≠ k := by
    intro k l s info hk hnone hsome heq
    have hfresh := h _ (mem_targets_of_resolve?_eq_none hk hnone) hnone
    have hmeans := (resolve?_minified_eq_none_iff (isSome_of_mem_places hk) hnone).mpr hfresh
    rw [← heq, resolve?_minified hsome] at hmeans
    cases hmeans
  cases hmeans : (SymbolTable.ofProgram p).resolve? f m with
  | none =>
    rw [Renaming.spellName_of_resolve?_eq_none hmeans] at heq
    cases hmeans' : (SymbolTable.ofProgram p).resolve? f n with
    | none => rwa [Renaming.spellName_of_resolve?_eq_none hmeans'] at heq
    | some e =>
      rw [Renaming.spellName_of_resolve? hmeans'] at heq
      exact absurd heq.symm (hfree hm hmeans hmeans')
  | some e =>
    rw [Renaming.spellName_of_resolve? hmeans] at heq
    cases hmeans' : (SymbolTable.ofProgram p).resolve? f n with
    | none =>
      rw [Renaming.spellName_of_resolve?_eq_none hmeans'] at heq
      exact absurd heq (hfree hn hmeans' hmeans)
    | some e' =>
      rw [Renaming.spellName_of_resolve? hmeans'] at heq
      have hsame := Renaming.newName_injective (SymbolTable.get?_of_resolve? hmeans)
        (SymbolTable.get?_of_resolve? hmeans') heq
      rw [← SymbolTable.name_of_resolve? hmeans, hsame, SymbolTable.name_of_resolve? hmeans']

/-- **Short names keep the assignments of a program exactly if no target that means nothing is spelled
like the short name of something that its function sees.** -/
theorem assignmentsKept_iff (p : Program) : p.AssignmentsKept ↔
    ∀ a ∈ p.targets, (SymbolTable.ofProgram p).resolve? a.1 a.2 = none →
      ∀ s : Symbol, s.IsVisible a.1 → p.renaming.short? s ≠ some a.2 := by
  constructor
  · intro h a ha hnone
    -- only the first half of what is kept is needed on this way
    have hmeanings := h.meanings
    rw [targets_minified, List.forall₂_map_right_iff, List.forall₂_same] at hmeanings
    have hafter := hmeanings a ha
    rw [Renaming.spellName_of_resolve?_eq_none hnone, hnone, Option.map_none,
      Option.map_eq_none_iff] at hafter
    exact (resolve?_minified_eq_none_iff
      (isSome_of_mem_places (List.mem_append_right _ ha)) hnone).mp hafter
  · intro h
    constructor
    case meanings =>
      rw [targets_minified, List.forall₂_map_right_iff, List.forall₂_same]
      intro a ha
      cases hmeans : (SymbolTable.ofProgram p).resolve? a.1 a.2 with
      | none =>
        rw [Renaming.spellName_of_resolve?_eq_none hmeans, Option.map_none, Option.map_eq_none_iff]
        exact (resolve?_minified_eq_none_iff
          (isSome_of_mem_places (List.mem_append_right _ ha)) hmeans).mpr (h a ha hmeans)
      | some e =>
        rw [Renaming.spellName_of_resolve? hmeans, resolve?_minified hmeans]
        rfl
    case distinct =>
      -- a place goes with its new spelling, so what is asked is that new spellings keep places apart
      have hzip : p.places.zip p.minified.places = p.places.map fun a =>
          (a, p.renaming.newName (.global a.1),
            p.renaming.spellName (.ofProgram p) a.1 a.2) := by
        rw [places_minified]
        simpa using List.zip_map' (f := id) (l := p.places)
      rw [hzip]
      intro _ ha _ hb
      obtain ⟨⟨f, m⟩, hm, rfl⟩ := List.mem_map.mp ha
      obtain ⟨⟨g, n⟩, hn, rfl⟩ := List.mem_map.mp hb
      rintro rfl heq
      exact eq_of_spellName_eq h hm hn heq

/-- A text that assigns to a name it does not declare. -/
def strayText : String := "Function A() Uint64\n10 DIM x AS Uint64\n20 LET v0 = 1\n30 RETURN x\nEnd Function"

/-- What the text stands for. -/
def strayTarget : Program where
  headers := []
  routines := [⟨"A", .uint64, [],
    [⟨10, .dim "x" .uint64⟩, ⟨20, .assign "v0" (.value (.uint64 1))⟩, ⟨30, .result (.name "x")⟩], []⟩]

/-- The declared variable gets the spelling of the name that means nothing, and the assignment goes to
it. -/
theorem not_assignmentsKept_strayTarget : read .default strayText = .ok strayTarget ∧
    (SymbolTable.ofProgram strayTarget).resolve? "A" "v0" = none ∧
    strayTarget.renaming.short? (.inside "A" "x") = some "v0" ∧
    ((SymbolTable.ofProgram strayTarget.minified).resolve? "A" "v0").map Prod.fst
      = some (strayTarget.renaming.image (.inside "A" "x")) ∧
    ¬ strayTarget.AssignmentsKept := by
  have hread : read .default strayText = .ok strayTarget := by decide +kernel
  have hbefore : (SymbolTable.ofProgram strayTarget).resolve? "A" "v0" = none := by decide +kernel
  have hshort : strayTarget.renaming.short? (.inside "A" "x") = some "v0" := by decide +kernel
  have hafter : ((SymbolTable.ofProgram strayTarget.minified).resolve? "A" "v0").map Prod.fst
      = some (strayTarget.renaming.image (.inside "A" "x")) := by decide +kernel
  have htargets : strayTarget.targets = [("A", "v0")] ∧
      strayTarget.minified.targets = [("A", "v0")] := by decide +kernel
  refine ⟨hread, hbefore, hshort, hafter, fun h => ?_⟩
  have hmeanings := h.meanings
  rw [htargets.1, htargets.2, List.forall₂_cons, hbefore, hafter] at hmeanings
  cases hmeanings.1

end Program

end ContractBasic
