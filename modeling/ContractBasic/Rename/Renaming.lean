/-
Short names for the private names of a program.

Natives, and functions that start with a capital letter, are what a contract shows to others and
keep their names.  Every other declaration gets a short name of its own, and every occurrence is
renamed after the declaration that it means from its own function.

* `isPreserved` — which declarations keep their names
* `Renaming` — the short name of each declaration that has one
* `Program.rename` — a program under a renaming
* `Program.minify` — a program under the renaming of a table, and the way back
-/
import ContractBasic.Program.Traverse
import ContractBasic.Rename.Supply

namespace ContractBasic

/-- Whether a declaration keeps its name. -/
def isPreserved (name : String) : SymbolKind → Bool
  | .native => true
  | .routine => (name.toList.head?.map Char.isUpper).getD false
  | .var | .param => false

/-! ### Renamings -/

/-- A declaration and its short name. -/
structure Renamed where
  symbol : Symbol
  info : SymbolInfo
  short : String
deriving DecidableEq, Repr

/-- The declarations that get short names, in order. -/
abbrev Renaming := List Renamed

namespace Renaming

/-- Short names from a supply for declarations in order. -/
def assign (s : Supply) : List (Symbol × SymbolInfo) → Renaming
  | [] => []
  | (symbol, info) :: rest =>
    let (short, s) := s.next info.kind
    ⟨symbol, info, short⟩ :: assign s rest

/-- Short names for the declarations of a table that do not keep theirs. -/
def ofTable (t : SymbolTable) : Renaming :=
  let keeps := fun (e : Symbol × SymbolInfo) => isPreserved e.1.name e.2.kind
  let supply := Supply.avoiding ((t.symbols.filter keeps).map (·.1.name))
  assign supply (t.symbols.filter fun e => !keeps e)

/-- The short name of a declaration. -/
def short? (r : Renaming) (symbol : Symbol) : Option String :=
  (r.find? (·.symbol = symbol)).map (·.short)

end Renaming

/-- What a short name stood for. -/
structure FullName where
  name : String
  kind : SymbolKind
  owner : Option String
deriving DecidableEq, Repr

/-- What short names stood for, in the order in which they were given out. -/
abbrev Mapping := OrderedMap FullName

/-- The name that a short name stood for. -/
def Mapping.fullName? (m : Mapping) (short : String) : Option String :=
  (m.get? short).map (·.name)

/-- The way back from the short names of a renaming. -/
def Renaming.mapping (r : Renaming) : Mapping :=
  .ofList (r.map fun e => (e.short, ⟨e.symbol.name, e.info.kind, e.info.owner⟩))

/-! ### Programs under a renaming -/

/-- A spelling after the declaration it means: its short name, if it has one. -/
def Renaming.spell (r : Renaming) (meaning : Option (Symbol × SymbolInfo)) (name : String) :
    String :=
  ((meaning.map (·.1)).bind r.short?).getD name

/-- The new spelling of a name in a function. -/
def Renaming.spellName (r : Renaming) (t : SymbolTable) (routine name : String) : String :=
  r.spell (t.resolve? routine name) name

/-- The new spelling of a call in a function. -/
def Renaming.spellCall (r : Renaming) (t : SymbolTable) (routine name : String) : String :=
  r.spell (t.resolveCall? routine name) name

/-- The new spellings in expressions. -/
def Renaming.respelling (r : Renaming) (t : SymbolTable) : Respelling Id where
  name := fun routine n => pure (r.spellName t routine n)
  call := fun routine f _ => pure (r.spellCall t routine f)

/-- A statement with the name that it declares or assigns to spelled anew. -/
def StatementKind.mapTarget (f : String → String) : StatementKind → StatementKind
  | .dim n type => .dim (f n) type
  | .assign n e => .assign (f n) e
  | k => k

/-- The first line of a function and the targets of its statements spelled anew. -/
def Renaming.routine (r : Renaming) (t : SymbolTable) (f : Routine) : Routine :=
  let spell := r.spellName t f.name
  { f with
    name := (r.short? (.global f.name)).getD f.name
    params := f.params.map fun p => { p with name := spell p.name }
    statements := f.statements.map fun s => { s with kind := s.kind.mapTarget spell } }

/-- A program under a renaming; names mean what a table says. -/
def Program.rename (r : Renaming) (t : SymbolTable) (p : Program) : Program :=
  let p := (p.respell (r.respelling t)).run
  { p with routines := p.routines.map (r.routine t) }

/-- A program with short names for the private declarations of a table, and the way back. -/
def Program.minify (t : SymbolTable) (p : Program) : Program × Mapping :=
  let r := Renaming.ofTable t
  (p.rename r t, r.mapping)

end ContractBasic
