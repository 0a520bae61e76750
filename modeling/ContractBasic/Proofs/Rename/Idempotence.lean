/-
Short names given out a second time.

A program with short names lists the images of its declarations in the same order, so every image is
given the short name it has.  Names that meant nothing may be found now, but what they are found to
mean is spelled as they are; and no text in capitals is a short name.  So nothing changes.

* `Renaming.proper_renaming` — short names are private names that tell declarations apart
* `Program.minified_minified` — short names are their own short names
* `Program.minify_minify` — a second renaming changes nothing, and its mapping leads to itself
-/
import ContractBasic.Proofs.Rename.Order
import ContractBasic.Proofs.Text.Upcase

namespace ContractBasic

namespace Renaming

/-! ### Private names -/

theorem isLower_letter (kind : SymbolKind) : kind.letter.isLower = true := by
  cases kind <;> rfl

/-- What is not native does not keep a short name. -/
theorem isPreserved_shortName {kind : SymbolKind} (hkind : kind ≠ .native) (kind' : SymbolKind)
    (n : Nat) : isPreserved (shortName kind' n) kind = false := by
  cases kind with
  | native => exact absurd rfl hkind
  | var | param => rfl
  | routine =>
    rw [isPreserved, shortName, String.toList_ofList, List.head?_cons]
    cases kind' <;> rfl

/-- Short names are private names that tell declarations apart. -/
theorem proper_renaming (p : Program) : p.renaming.Proper p := by
  constructor
  case keeps => exact keeps_ofTable _
  case hides =>
    -- what got a short name is no native, and nothing but natives would keep such a name
    intro e he hnot
    obtain ⟨e', he', -, hshort⟩ := exists_short?_of_not_kept (SymbolTable.mem_symbols.mp he) hnot
    obtain ⟨n, heq⟩ := exists_shortName_of_mem_assign he'
    rw [newName_of_short? hshort, heq]
    refine isPreserved_shortName ?_ _ n
    intro hkind
    rw [hkind] at hnot
    cases hnot
  case distinct =>
    intro e he e' he'
    exact image_injective (SymbolTable.mem_symbols.mp he) (SymbolTable.mem_symbols.mp he')

end Renaming

namespace Program

/-! ### A second renaming -/

/-- The mapping of a program with short names leads every short name to itself. -/
theorem entries_mapping_minified (p : Program) :
    p.minified.renaming.mapping.entries = p.renaming.mapping.entries.map fun e =>
      (e.1, ⟨e.1, e.2.kind, e.2.owner.map fun f => p.renaming.newName (.global f)⟩) := by
  have hrenaming : Renaming.ofTable (.ofProgram p.minified) = _ :=
    (Renaming.proper_renaming p).renaming_rename
  rw [Renaming.entries_mapping, Renaming.entries_mapping, hrenaming, List.map_map, List.map_map]
  refine List.map_congr_left fun e he => ?_
  have hname : (p.renaming.image e.symbol).name = e.short := by
    rw [Renaming.name_image, Renaming.newName_of_mem he]
  -- the owner of an image is the image of the owner
  have howner : (p.renaming.image e.symbol).scope?
      = e.info.owner.map fun f => p.renaming.newName (.global f) := by
    rw [(SymbolTable.mem_declared_of_get? (Renaming.mem_ofTable he).1).2]
    cases e.symbol <;> rfl
  show (e.short, FullName.mk (p.renaming.image e.symbol).name e.info.kind
    (p.renaming.image e.symbol).scope?) = _
  rw [hname, howner]
  rfl

/-- What a program with short names declares keeps its name. -/
theorem newName_minified {p : Program} {s : Symbol} {info : SymbolInfo}
    (hget : (SymbolTable.ofProgram p.minified).get? s = some info) :
    p.minified.renaming.newName s = s.name := by
  obtain ⟨s₀, info₀, hget₀, rfl⟩ := exists_image_of_get? hget
  rw [Renaming.name_image]
  exact (Renaming.proper_renaming p).newName_image hget₀

/-- A name is spelled as it is, also where it means something only now. -/
theorem spellName_minified (p : Program) (f n : String) :
    p.minified.renaming.spellName (.ofProgram p.minified) f n = n := by
  cases hmeaning : (SymbolTable.ofProgram p.minified).resolve? f n with
  | none => exact Renaming.spellName_of_resolve?_eq_none hmeaning
  | some e =>
    rw [Renaming.spellName_of_resolve? hmeaning,
      newName_minified (SymbolTable.get?_of_resolve? hmeaning),
      SymbolTable.name_of_resolve? hmeaning]

/-- No short name is a text in capitals. -/
theorem short_ne_upcase {t : SymbolTable} {e : Renamed} (he : e ∈ Renaming.ofTable t) (n : String) :
    e.short ≠ Text.upcase n := by
  intro heq
  obtain ⟨k, hshort⟩ := Renaming.exists_shortName_of_mem_assign he
  have hletter : e.info.kind.letter ∈ (Text.upcase n).toList := by
    rw [← heq, hshort, shortName, String.toList_ofList]
    exact List.mem_cons_self
  have hlower := Text.isLower_of_mem_upcase hletter
  rw [Renaming.isLower_letter] at hlower
  cases hlower

/-- A call is spelled as it is: what it reaches in capitals has no short name. -/
theorem spellCall_minified (p : Program) (f n : String) :
    p.minified.renaming.spellCall (.ofProgram p.minified) f n = n := by
  cases hmeaning : (SymbolTable.ofProgram p.minified).resolveCall? f n with
  | none =>
    rw [Renaming.spellCall, hmeaning]
    rfl
  | some e =>
    obtain ⟨s, info⟩ := e
    rw [Renaming.spellCall_of_resolveCall? hmeaning]
    cases hshort : p.minified.renaming.short? s with
    | none => rfl
    | some x =>
      have hget := SymbolTable.get?_of_resolveCall? hmeaning
      have hname : x = s.name := by
        rw [← Renaming.newName_of_short? hshort, newName_minified hget]
      rw [SymbolTable.resolveCall?, Option.or_eq_some_iff] at hmeaning
      -- what is found as it is spelled is its own short name
      rcases hmeaning with hexact | ⟨-, hupper⟩
      · rw [Option.getD_some, hname, SymbolTable.name_of_resolve? hexact]
      · obtain ⟨e, he, -, rfl⟩ := Renaming.exists_mem_of_short? hshort
        rw [SymbolTable.name_of_resolve? hupper] at hname
        exact absurd hname (short_ne_upcase he n)

/-- Short names are their own short names. -/
theorem minified_minified (p : Program) : p.minified.minified = p.minified := by
  refine (minified_eq_spell p.minified).trans (spell_eq_self ?_ ?_ ?_ ?_)
  · intro r hr
    obtain ⟨info, hget⟩ := Option.isSome_iff_exists.mp (SymbolTable.get?_routine_isSome hr)
    exact newName_minified hget
  · exact fun a _ => spellName_minified p a.1 a.2
  · exact fun f n _ => spellName_minified p f n
  · exact fun f n _ _ => spellCall_minified p f n

/-- **Short names given out a second time change nothing**, whatever the program.  The mapping has the
short names of the first in the same order, each leading to itself with the same kind, and the
functions that they belong to under their new names. -/
theorem minify_minify (p : Program) :
    ((p.minify (.ofProgram p)).1.minify (.ofProgram (p.minify (.ofProgram p)).1)).1
      = (p.minify (.ofProgram p)).1 ∧
    ((p.minify (.ofProgram p)).1.minify (.ofProgram (p.minify (.ofProgram p)).1)).2.entries
      = (p.minify (.ofProgram p)).2.entries.map fun e =>
        (e.1, ⟨e.1, e.2.kind, e.2.owner.map fun f => p.renaming.newName (.global f)⟩) :=
  ⟨minified_minified p, entries_mapping_minified p⟩

end Program

end ContractBasic
