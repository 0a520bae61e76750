/-
What short names are, and what they stay clear of.

The way back from short names lists every private declaration once, in the order of the table: a short
name that was given out twice would have cost a declaration its entry.  Short names keep clear of the
words of the language and of every name that a contract shows to others, in whatever case these are
written.

* `IsShown` — the names that a contract shows to others
* `Program.IsFresh` — the form of a short name, and what it differs from
* `Program.fresh_minify` — the entries of the way back
-/
import ContractBasic.Proofs.Rename.Meaning

namespace ContractBasic

/-! ### Names that are shown -/

/-- Whether a contract shows a declaration to others: it shows natives, and functions that start with
a capital letter. -/
def IsShown (name : String) (kind : SymbolKind) : Prop :=
  kind = .native ∨ kind = .routine ∧ name.toList.head?.any Char.isUpper = true

instance (name : String) (kind : SymbolKind) : Decidable (IsShown name kind) :=
  inferInstanceAs (Decidable (_ ∨ _))

theorem isPreserved_iff {name : String} {kind : SymbolKind} :
    isPreserved name kind = true ↔ IsShown name kind := by
  cases kind with
  | var | param | native => simp [isPreserved, IsShown]
  | routine =>
    rw [isPreserved, IsShown]
    cases name.toList.head? <;> simp

/-! ### Short names -/

/-- Whether a text can be the short name of a declaration of a kind beside the names of a program. -/
structure Program.IsFresh (p : Program) (kind : SymbolKind) (short : String) : Prop where
  isWord : IsWord short
  /-- A letter for the kind, and a number. -/
  form : ∃ letter n cs, (kind, letter) ∈ [(SymbolKind.routine, 'f'), (.param, 'a'), (.var, 'v')] ∧
    Text.IsNumeral 36 n cs ∧ short.toList = letter :: cs
  native : ∀ n ∈ Native.catalog, short.toLower ≠ n.name.toLower
  routine : ∀ r ∈ p.routines, IsShown r.name .routine → short.toLower ≠ r.name.toLower
  keyword : short.toLower ∉ ["as", "dim", "else", "end", "function", "goto", "if", "let", "return",
    "string", "then", "uint64"]

namespace Renaming

/-- What gets a short name is no native. -/
theorem letter_mem {t : SymbolTable} {e : Renamed} (he : e ∈ ofTable t) :
    (e.info.kind, e.info.kind.letter)
      ∈ [(SymbolKind.routine, 'f'), (.param, 'a'), (.var, 'v')] := by
  have hnot := (mem_ofTable he).2
  cases hk : e.info.kind with
  | var | param | routine => decide
  | native =>
    rw [hk] at hnot
    cases hnot

theorem not_reserved_of_mem {t : SymbolTable} {e : Renamed} (he : e ∈ ofTable t) :
    e.short ∉ reservedWords :=
  fun h => not_blocked_of_mem_assign he (List.mem_append_right _ h)

/-- A short name differs from every name under which something global keeps its name. -/
theorem toLower_short_ne {p : Program} {e : Renamed} (he : e ∈ p.renaming) {n : String}
    (hdeclared : ((SymbolTable.ofProgram p).get? (.global n)).isSome)
    (hshown : isPreserved n .routine = true) : e.short.toLower ≠ n.toLower := by
  obtain ⟨info, hget⟩ := Option.isSome_iff_exists.mp hdeclared
  rw [toLower_short he]
  exact short_ne_toLower he hget (isPreserved_global hget hshown)

theorem isFresh_short {p : Program} {e : Renamed} (he : e ∈ p.renaming) :
    p.IsFresh e.info.kind e.short := by
  obtain ⟨n, hshort⟩ := exists_shortName_of_mem_assign he
  constructor
  case isWord =>
    rw [hshort]
    exact isWord_shortName _ n
  case form =>
    refine ⟨e.info.kind.letter, n, Text.numeral 36 n, letter_mem he,
      Text.isNumeral_numeral (by omega) (by omega) n, ?_⟩
    rw [hshort, shortName, String.toList_ofList]
  case native =>
    intro x hx
    exact toLower_short_ne he (get?_native_isSome p hx) (isPreserved_native x hx)
  case routine =>
    intro r hr hshown
    exact toLower_short_ne he (SymbolTable.get?_routine_isSome hr) (isPreserved_iff.mpr hshown)
  case keyword =>
    rw [toLower_short he]
    exact not_reserved_of_mem he

end Renaming

namespace Program

/-- **The way back from short names** has one entry for every declaration that is not shown, in the
order of the table, with its name, its kind and its owner; no short name is given out twice, and each
one is fresh. -/
theorem fresh_minify (p : Program) :
    (p.minify (.ofProgram p)).2.entries.map Prod.snd
      = ((SymbolTable.ofProgram p).symbols.filter fun e => ¬ IsShown e.1.name e.2.kind).map
          (fun e => ⟨e.1.name, e.2.kind, e.2.owner⟩) ∧
    ((p.minify (.ofProgram p)).2.entries.map Prod.fst).Nodup ∧
    ∀ e ∈ (p.minify (.ofProgram p)).2.entries, p.IsFresh e.2.kind e.1 := by
  have hentries : (p.minify (.ofProgram p)).2.entries
      = p.renaming.map fun e => (e.short, ⟨e.symbol.name, e.info.kind, e.info.owner⟩) :=
    Renaming.entries_mapping _
  have hfilter : (fun e : Symbol × SymbolInfo => decide ¬ IsShown e.1.name e.2.kind)
      = fun e => !isPreserved e.1.name e.2.kind := by
    funext e
    rw [Bool.eq_iff_iff]
    simp [← isPreserved_iff]
  -- the entries follow the table, with what is shown left out
  have hsymbols : p.renaming.map (fun e => (e.symbol, e.info))
      = (SymbolTable.ofProgram p).symbols.filter fun e => ¬ IsShown e.1.name e.2.kind := by
    rw [hfilter]
    exact Renaming.map_symbol_assign _ _
  refine ⟨?_, ?_, ?_⟩
  · rw [hentries, ← hsymbols, List.map_map, List.map_map]
    rfl
  · rw [hentries, List.map_map]
    exact Renaming.nodup_ofTable _
  · rw [hentries]
    intro e he
    obtain ⟨d, hd, rfl⟩ := List.mem_map.mp he
    exact Renaming.isFresh_short hd

end Program

end ContractBasic
