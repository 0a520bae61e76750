/-
Private names do not show under short names.

Short names are given out after the order and the kinds of declarations, and neither hangs on how
private declarations are spelled.  So a program and the same program with other private names are the
same under short names, as long as every occurrence means what it meant: the text that is generated
does not tell one from the other.

* `SymbolTable.meaning?` — the declaration that a node refers to
* `Renaming.Consistent` — renamings of private declarations under which everything means the image of
  what it meant
* `Renaming.Proper.spell_rename` — what is spelled anew twice is spelled as what is spelled anew once
* `Program.minified_rename` — a consistent renaming changes nothing under short names
* `Program.generate_rename` — what is generated under short names does not reveal private names
-/
import ContractBasic.Generate
import ContractBasic.Proofs.Rename.Order

namespace ContractBasic

/-- The declaration that a node in a function refers to, if it is a name or a call that means
something. -/
def SymbolTable.meaning? (t : SymbolTable) (f : String) : Expression → Option Symbol
  | .name n => (t.resolve? f n).map Prod.fst
  | .call n _ => (t.resolveCall? f n).map Prod.fst
  | .value _ | .operation _ _ _ => none

namespace Renaming

/-- Whether a renaming of private declarations leaves everything in a program its meaning: every name,
every call and every name that is assigned to means the image of what it meant, or nothing as
before. -/
structure Consistent (r : Renaming) (p : Program) : Prop extends Proper r p where
  uses : (p.rename r (.ofProgram p)).nodes.map
      (fun a => (SymbolTable.ofProgram (p.rename r (.ofProgram p))).meaning? a.1 a.2)
    = p.nodes.map fun a => ((SymbolTable.ofProgram p).meaning? a.1 a.2).map r.image
  targets : (p.rename r (.ofProgram p)).targets.map
      (fun a => ((SymbolTable.ofProgram (p.rename r (.ofProgram p))).resolve? a.1 a.2).map Prod.fst)
    = p.targets.map fun a => (((SymbolTable.ofProgram p).resolve? a.1 a.2).map Prod.fst).map r.image

variable {r : Renaming} {p : Program}

/-- A spelling after what was meant, and then one after its image, is the spelling that the program
itself gives: what has no short name kept its spelling the first time. -/
theorem Proper.spell_rename (h : r.Proper p) {meaning meaning' : Option (Symbol × SymbolInfo)}
    (hmeaning : ∀ e ∈ meaning, (SymbolTable.ofProgram p).get? e.1 = some e.2)
    (himage : meaning'.map Prod.fst = (meaning.map Prod.fst).map r.image) (n : String) :
    (p.rename r (.ofProgram p)).renaming.spell meaning' (r.spell meaning n)
      = p.renaming.spell meaning n := by
  rw [spell, spell, spell, himage]
  cases meaning with
  | none => rfl
  | some e =>
    obtain ⟨s, info⟩ := e
    have hget : (SymbolTable.ofProgram p).get? s = some info := hmeaning _ rfl
    simp only [Option.map_some, Option.bind_some, h.short?_image hget]
    cases hkept : isPreserved s.name info.kind with
    | true =>
      -- what is kept was spelled as it was the first time, and so it is now
      rw [h.keeps (s, info) (SymbolTable.mem_symbols.mpr hget) hkept, short?_of_kept hget hkept,
        Option.getD_none]
    | false =>
      obtain ⟨e, -, -, hshort⟩ := exists_short?_of_not_kept hget hkept
      rw [hshort, Option.getD_some, Option.getD_some]

/-- A declaration inside a function means its image where the function is renamed. -/
theorem Proper.resolve?_rename (h : r.Proper p) {f n : String} {info : SymbolInfo}
    (hget : (SymbolTable.ofProgram p).get? (.inside f n) = some info) :
    ((SymbolTable.ofProgram (p.rename r (.ofProgram p))).resolve? (r.newName (.global f))
      (r.newName (.inside f n))).map Prod.fst = some (r.image (.inside f n)) := by
  have hmem : r.entry (.inside f n, info) ∈
      (SymbolTable.ofProgram (p.rename r (.ofProgram p))).symbols := by
    rw [h.symbols_rename]
    exact List.mem_map_of_mem (SymbolTable.mem_symbols.mpr hget)
  rw [SymbolTable.resolve?_of_local (SymbolTable.mem_symbols.mp hmem)]
  rfl

namespace Consistent

variable (h : r.Consistent p)

include h

/-- A node means the image of what it meant. -/
theorem meaning?_rename {f : String} {e : Expression} (he : (f, e) ∈ p.nodes) :
    (SymbolTable.ofProgram (p.rename r (.ofProgram p))).meaning? (r.newName (.global f))
        (e.spell (r.spellName (.ofProgram p) f) (r.spellCall (.ofProgram p) f))
      = ((SymbolTable.ofProgram p).meaning? f e).map r.image := by
  have hnodes : (p.rename r (.ofProgram p)).nodes = p.nodes.map fun a =>
      (r.newName (.global a.1),
        a.2.spell (r.spellName (.ofProgram p) a.1) (r.spellCall (.ofProgram p) a.1)) := by
    rw [Program.rename_eq_spell, Program.nodes_spell]
    rfl
  have huses := h.uses
  rw [hnodes, List.map_map, List.map_inj_left] at huses
  exact huses (f, e) he

/-- A name that is declared or assigned to means the image of what it meant. -/
theorem resolve?_rename {a : String × String} (ha : a ∈ p.places) :
    ((SymbolTable.ofProgram (p.rename r (.ofProgram p))).resolve? (r.newName (.global a.1))
        (r.spellName (.ofProgram p) a.1 a.2)).map Prod.fst
      = (((SymbolTable.ofProgram p).resolve? a.1 a.2).map Prod.fst).map r.image := by
  rcases List.mem_append.mp ha with ha | ha
  · -- what a function declares is found in it before any global
    obtain ⟨f, hf, ha⟩ := List.mem_flatMap.mp ha
    obtain ⟨d, hd, rfl⟩ := List.mem_map.mp ha
    obtain ⟨info, hget⟩ := Option.isSome_iff_exists.mp (SymbolTable.get?_declaration_isSome hf hd)
    have hmeaning := SymbolTable.resolve?_of_local hget
    rw [spellName_of_resolve? hmeaning, hmeaning]
    exact h.toProper.resolve?_rename hget
  · have htargets := h.targets
    rw [Program.rename_eq_spell, Program.targets_spell, List.map_map, List.map_inj_left,
      ← Program.rename_eq_spell] at htargets
    exact htargets a ha

end Consistent

end Renaming

namespace Program

/-- **A program and its renamed form are the same under short names.** -/
theorem minified_rename {p : Program} {r : Renaming} (h : r.Consistent p) :
    (p.rename r (.ofProgram p)).minified = p.minified := by
  -- both are the program with some spelling, and the spellings agree on all that stands in it
  have htwice : (p.rename r (.ofProgram p)).minified
      = p.spell ((r.spelling (.ofProgram p)).andThen ((p.rename r (.ofProgram p)).renaming.spelling
        (.ofProgram (p.rename r (.ofProgram p))))) := by
    rw [minified_eq_spell, ← spell_spell, ← rename_eq_spell r (.ofProgram p) p]
  rw [htwice, minified_eq_spell p]
  refine spell_congr ?_ ?_ ?_ ?_
  · intro f hf
    obtain ⟨info, hget⟩ := Option.isSome_iff_exists.mp (SymbolTable.get?_routine_isSome hf)
    exact h.newName_image hget
  · intro a ha
    exact h.spell_rename (fun e he => SymbolTable.get?_of_resolve? he) (h.resolve?_rename ha) a.2
  · intro f n hn
    have hmeaning := h.meaning?_rename hn
    rw [Expression.spell_name] at hmeaning
    exact h.spell_rename (fun e he => SymbolTable.get?_of_resolve? he) hmeaning n
  · intro f n args hn
    have hmeaning := h.meaning?_rename hn
    rw [Expression.spell_call] at hmeaning
    exact h.spell_rename (fun e he => SymbolTable.get?_of_resolveCall? he) hmeaning n

/-- **What is generated under short names does not reveal private names.**  Two programs that differ in
the spelling of private declarations only, and in which every occurrence has the same meaning, give
the same text, in either layout, with and without comments. -/
theorem generate_rename {p : Program} {r : Renaming} (h : r.Consistent p) (comments compact : Bool) :
    ((p.rename r (.ofProgram p)).generate ⟨true, comments, compact⟩).code
      = (p.generate ⟨true, comments, compact⟩).code := by
  show (p.rename r (.ofProgram p)).minified.source _ _ = p.minified.source _ _
  rw [minified_rename h]

/-- A renaming in which private declarations exchange their names, and some take what others get as
short names. -/
def exchange : Renaming :=
  (crossed.renaming.zip ["twice", "strlen", "x", "v0", "f1", "F1", "y", "x"]).map fun e =>
    { e.1 with short := e.2 }

theorem generate_rename_exchange : exchange.Consistent crossed ∧
    crossed.rename exchange (.ofProgram crossed) ≠ crossed ∧
    ((crossed.rename exchange (.ofProgram crossed)).generate ⟨true, false, true⟩).code
      = (crossed.generate ⟨true, false, true⟩).code := by
  have hproper : exchange.Proper crossed := by decide +kernel
  have h : exchange.Consistent crossed := ⟨hproper, by decide +kernel, by decide +kernel⟩
  exact ⟨h, by decide +kernel, generate_rename h false true⟩

end Program

end ContractBasic
