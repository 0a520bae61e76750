/-
The names that a program declares.

Functions and natives are global.  Parameters and variables belong to a function, so two functions
may declare the same name.  A name is looked up among the locals of the function it is used in, then
among the globals.

* `SymbolTable.resolve?`, `SymbolTable.resolveCall?` — what a name or a call means in a function
* `SymbolTable.symbols` — every declaration in order
* `SymbolTable.ofProgram` — the declarations of a program
-/
import ContractBasic.Native
import ContractBasic.OrderedMap
import ContractBasic.Program.Basic
import ContractBasic.Text.Upcase

namespace ContractBasic

/-- What a name stands for. -/
inductive SymbolKind where
  | var
  | param
  | routine
  | native
deriving DecidableEq, Repr

namespace SymbolKind

/-- The word for a kind. -/
def word : SymbolKind → String
  | var => "variable"
  | param => "argument"
  | routine => "function"
  | native => "builtin-function"

/-- Every kind once. -/
def all : List SymbolKind := [var, param, routine, native]

/-- The kind of a word. -/
def ofWord? (w : String) : Option SymbolKind :=
  all.find? (·.word = w)

/-- Whether names of the kind can be called. -/
def isCallable : SymbolKind → Bool
  | var | param => false
  | routine | native => true

end SymbolKind

/-- What is known of a declaration; `owner` is the function that a local belongs to. -/
structure SymbolInfo where
  kind : SymbolKind
  type : ValueType
  owner : Option String
deriving DecidableEq, Repr

/-- A declaration, as opposed to its spelling. -/
inductive Symbol where
  | global (name : String)
  | inside (routine name : String)
deriving DecidableEq, Repr

namespace Symbol

/-- The spelling of a declaration. -/
def name : Symbol → String
  | global n | inside _ n => n

/-- The function whose local it is. -/
def scope? : Symbol → Option String
  | global _ => none
  | inside f _ => some f

end Symbol

/-- Declarations: globals by name, and the locals of each function by name. -/
structure SymbolTable where
  globals : OrderedMap SymbolInfo
  locals : OrderedMap (OrderedMap SymbolInfo)
deriving DecidableEq

namespace SymbolTable

/-! ### Declaring -/

/-- The table without declarations. -/
def empty : SymbolTable := ⟨.empty, .empty⟩

/-- The table with one more global; a second declaration of a name replaces the first. -/
def declareGlobal (t : SymbolTable) (name : String) (kind : SymbolKind) (type : ValueType) :
    SymbolTable :=
  { t with globals := t.globals.insert name ⟨kind, type, none⟩ }

/-- The locals of a function. -/
def localsOf (t : SymbolTable) (routine : String) : OrderedMap SymbolInfo :=
  (t.locals.get? routine).getD .empty

/-- The table with one more local of a function. -/
def declareLocal (t : SymbolTable) (routine name : String) (kind : SymbolKind) (type : ValueType) :
    SymbolTable :=
  { t with
    locals := t.locals.insert routine ((t.localsOf routine).insert name ⟨kind, type, some routine⟩) }

/-- The table of the natives. -/
def natives : SymbolTable :=
  Native.catalog.foldl
    (fun t n => t.declareGlobal n.name .native (n.returns.getD .unknown)) empty

/-- The declarations inside a function in order: parameters, then variables. -/
def declarations (r : Routine) : List (String × SymbolKind × ValueType) :=
  r.params.map (fun p => (p.name, .param, p.type)) ++
    r.statements.filterMap fun s =>
      match s.kind with
      | .dim n type => some (n, .var, type)
      | _ => none

/-- The table with the locals of a function. -/
def declareLocals (t : SymbolTable) (r : Routine) : SymbolTable :=
  (declarations r).foldl (fun t (n, kind, type) => t.declareLocal r.name n kind type) t

/-- The declarations of a program: natives, then functions, then the locals of each function. -/
def ofProgram (p : Program) : SymbolTable :=
  let globals :=
    p.routines.foldl (fun t r => t.declareGlobal r.name .routine r.returnType) natives
  p.routines.foldl declareLocals globals

/-! ### Looking up -/

/-- What is known of a declaration. -/
def get? (t : SymbolTable) : Symbol → Option SymbolInfo
  | .global n => t.globals.get? n
  | .inside f n => (t.localsOf f).get? n

/-- What a name means inside a function. -/
def resolve? (t : SymbolTable) (routine name : String) : Option (Symbol × SymbolInfo) :=
  match t.get? (.inside routine name) with
  | some info => some (.inside routine name, info)
  | none => (t.get? (.global name)).map fun info => (.global name, info)

/-- What the name of a call means inside a function: a name that means nothing is tried again in
capitals, so natives may be called in any case. -/
def resolveCall? (t : SymbolTable) (routine name : String) : Option (Symbol × SymbolInfo) :=
  (t.resolve? routine name).or (t.resolve? routine (Text.upcase name))

/-- Every declaration: globals, then the locals of each function, each in order. -/
def symbols (t : SymbolTable) : List (Symbol × SymbolInfo) :=
  t.globals.entries.map (fun (n, info) => (.global n, info)) ++
    t.locals.entries.flatMap fun (f, inner) =>
      inner.entries.map fun (n, info) => (.inside f n, info)

end SymbolTable

end ContractBasic
