/-
The way back from short names.

The mapping goes by the bare spelling of a short name, although short names are given out by
declaration.  It leads back nevertheless: no two declarations share a short name, and what is written
as before is no short name, neither a name that is kept nor a call that reaches it in another case.

* `Program.restore` — a program with every short name replaced by what it stood for
* `Renaming.fullName?_mapping` — what the mapping of a renaming knows
* `Renaming.restore_newName`, `Renaming.restore_spellCall` — new names and calls lead back
* `Program.restore_minify` — a program is restored from its short names
-/
import ContractBasic.Proofs.Rename.Meaning
import ContractBasic.Proofs.Text.Upcase
import ContractBasic.Proofs.Token.Scan

namespace ContractBasic

/-- The name that a name stood for: itself, if it is no short name. -/
def Mapping.restore (m : Mapping) (n : String) : String := (m.fullName? n).getD n

/-- A program with every short name replaced by what it stood for, wherever it stands. -/
def Program.restore (m : Mapping) (p : Program) : Program :=
  p.spell ⟨m.restore, fun _ => m.restore, fun _ => m.restore⟩

/-- What a node calls, if it is a call. -/
def Expression.callee? : Expression → Option String
  | .call n _ => some n
  | .value _ | .name _ | .operation _ _ _ => none

/-- A word in capitals starts with a capital letter. -/
theorem IsWord.head_upcase {w : String} (h : IsWord w) :
    (Text.upcase w).toList.head?.map Char.isUpper = some true := by
  obtain ⟨c, cs, hw, halpha, -⟩ := isWord_iff.mp h
  have hascii : c.toNat < 0x80 := by
    have hrange := toNat_of_isAlpha halpha
    omega
  have hupper : c.isAlpha = true → c.toUpper.isUpper = true :=
    Text.forall_ascii (P := fun c => c.isAlpha = true → c.toUpper.isUpper = true)
      (by decide +kernel) hascii
  rw [Text.upcase, String.toList_ofList, hw, List.flatMap_cons, Text.upcaseChar, if_pos hascii,
    List.singleton_append, List.head?_cons, Option.map_some, hupper halpha]

namespace Renaming

/-! ### Short names lead back -/

/-- The mapping of a table knows the short names of its declarations and nothing else. -/
theorem fullName?_mapping {t : SymbolTable} {x n : String} :
    (ofTable t).mapping.fullName? x = some n ↔ ∃ e ∈ ofTable t, e.short = x ∧ e.symbol.name = n := by
  rw [Mapping.fullName?, Option.map_eq_some_iff]
  simp only [← OrderedMap.mem_entries, entries_mapping, List.mem_map]
  constructor
  · rintro ⟨_, ⟨e, he, heq⟩, rfl⟩
    cases heq
    exact ⟨e, he, rfl, rfl⟩
  · rintro ⟨e, he, rfl, rfl⟩
    exact ⟨_, ⟨e, he, rfl⟩, rfl⟩

theorem restore_short {t : SymbolTable} {e : Renamed} (he : e ∈ ofTable t) :
    (ofTable t).mapping.restore e.short = e.symbol.name := by
  rw [Mapping.restore, fullName?_mapping.mpr ⟨e, he, rfl, rfl⟩, Option.getD_some]

/-- What is no short name stays as it is. -/
theorem restore_of_ne {t : SymbolTable} {n : String} (h : ∀ e ∈ ofTable t, e.short ≠ n) :
    (ofTable t).mapping.restore n = n := by
  cases hfull : (ofTable t).mapping.fullName? n with
  | none => rw [Mapping.restore, hfull, Option.getD_none]
  | some o =>
    obtain ⟨e, he, hshort, -⟩ := fullName?_mapping.mp hfull
    exact absurd hshort (h e he)

/-- The new name of a declaration leads back to its name. -/
theorem restore_newName {t : SymbolTable} {s : Symbol} {info : SymbolInfo}
    (hget : t.get? s = some info) :
    (ofTable t).mapping.restore ((ofTable t).newName s) = s.name := by
  cases hkept : isPreserved s.name info.kind with
  | true =>
    rw [newName_of_kept hget hkept]
    refine restore_of_ne fun e he heq => short_ne_toLower he hget hkept ?_
    rw [← heq, toLower_short he]
  | false =>
    obtain ⟨e, he, rfl, hshort⟩ := exists_short?_of_not_kept hget hkept
    rw [newName_of_short? hshort, restore_short he]

/-- The new spelling of a name that means something leads back to the name. -/
theorem restore_spellName {t : SymbolTable} {f n : String} (h : (t.resolve? f n).isSome) :
    (ofTable t).mapping.restore ((ofTable t).spellName t f n) = n := by
  obtain ⟨⟨s, info⟩, h⟩ := Option.isSome_iff_exists.mp h
  rw [spellName_of_resolve? h, restore_newName (SymbolTable.get?_of_resolve? h),
    SymbolTable.name_of_resolve? h]

/-! ### Calls lead back -/

/-- What can be called by a word in capitals keeps its name. -/
theorem isPreserved_upcase {n : String} (hn : IsWord n) {kind : SymbolKind}
    (hcall : kind.isCallable = true) : isPreserved (Text.upcase n) kind = true := by
  cases kind with
  | var | param => cases hcall
  | native => rfl
  | routine => rw [isPreserved, hn.head_upcase, Option.getD_some]

/-- The new spelling of a call leads back to the call, if it is a word. -/
theorem restore_spellCall {p : Program} {f n : String} {s : Symbol} {info : SymbolInfo}
    (h : (SymbolTable.ofProgram p).resolveCall? f n = some (s, info))
    (hcall : info.kind.isCallable = true) (hn : IsWord n) :
    p.renaming.mapping.restore (p.renaming.spellCall (.ofProgram p) f n) = n := by
  have hget := SymbolTable.get?_of_resolveCall? h
  rw [spellCall_of_resolveCall? h]
  rw [SymbolTable.resolveCall?, Option.or_eq_some_iff] at h
  rcases h with h | ⟨-, h⟩
  · -- found as it is written
    have hname := SymbolTable.name_of_resolve? h
    have hback := restore_newName hget
    rwa [newName, hname] at hback
  · -- found in capitals only, so it is written as before
    have hupper := SymbolTable.name_of_resolve? h
    have hkept : isPreserved s.name info.kind = true := by
      rw [hupper]
      exact isPreserved_upcase hn hcall
    rw [short?_of_kept hget hkept, Option.getD_none]
    refine restore_of_ne fun e he heq => short_ne_toLower he hget hkept ?_
    rw [hupper, ← heq, toLower_upcase_short he]

end Renaming

/-! ### Programs are restored -/

namespace Program

/-- **A program is restored from its short names by the mapping.**  It has to pass the check of names,
the names of its calls have to be words, and what it assigns to has to mean something. -/
theorem restore_minify {p : Program} (hcheck : p.checkNames (.ofProgram p) = .ok ())
    (hwords : ∀ a ∈ p.nodes, ∀ n ∈ a.2.callee?, IsWord n)
    (htargets : ∀ a ∈ p.targets, ((SymbolTable.ofProgram p).resolve? a.1 a.2).isSome) :
    (p.minify (.ofProgram p)).1.restore (p.minify (.ofProgram p)).2 = p := by
  show p.minified.restore p.renaming.mapping = p
  have huses := checkNames_eq_ok.mp hcheck
  rw [minified_eq_spell, restore, spell_spell]
  -- spelled short and back is a spelling, and it fixes every identifier of the program
  refine spell_eq_self ?_ ?_ ?_ ?_
  · intro r hr
    obtain ⟨info, hget⟩ := Option.isSome_iff_exists.mp (SymbolTable.get?_routine_isSome hr)
    exact Renaming.restore_newName hget
  · intro a ha
    -- a place that means nothing could only be a target
    refine Renaming.restore_spellName (Option.isSome_iff_ne_none.mpr fun hnone => ?_)
    have htarget := htargets a (mem_targets_of_resolve?_eq_none ha hnone)
    rw [hnone] at htarget
    cases htarget
  · intro f n hn
    obtain ⟨s, info, hmeaning, -⟩ := SymbolTable.checkUse_name_eq_ok.mp (huses _ hn)
    exact Renaming.restore_spellName (Option.isSome_of_eq_some hmeaning)
  · intro f n args hn
    obtain ⟨s, info, hmeaning, hkind⟩ := SymbolTable.checkUse_call_eq_ok.mp (huses _ hn)
    exact Renaming.restore_spellCall hmeaning hkind (hwords _ hn n rfl)

theorem restore_minify_crossed : crossed.checkNames (.ofProgram crossed) = .ok () ∧
    (∀ a ∈ crossed.nodes, ∀ n ∈ a.2.callee?, IsWord n) ∧
    (∀ a ∈ crossed.targets, ((SymbolTable.ofProgram crossed).resolve? a.1 a.2).isSome) ∧
    (crossed.minify (.ofProgram crossed)).1.restore (crossed.minify (.ofProgram crossed)).2
      = crossed := by
  have hcheck : crossed.checkNames (.ofProgram crossed) = .ok () := by decide +kernel
  have hwords : ∀ a ∈ crossed.nodes, ∀ n ∈ a.2.callee?, IsWord n := by decide +kernel
  have htargets : ∀ a ∈ crossed.targets,
      ((SymbolTable.ofProgram crossed).resolve? a.1 a.2).isSome := by decide +kernel
  exact ⟨hcheck, hwords, htargets, restore_minify hcheck hwords htargets⟩

end Program

end ContractBasic
