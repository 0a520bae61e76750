/-
Programs and written source text as JSON.

Records are objects and alternatives are objects with one field named after them; an alternative
without content is its name alone.  Comments and missing targets are left out where there are none,
and reading puts them back.

* `Program.toJson`, `Program.ofJson?`
* `Generated.toJson`, `Generated.ofJson?`
-/
import ContractBasic.Generate
import ContractBasic.Json.Basic

namespace ContractBasic

namespace Json

/-- A text as a value. -/
def texts (ss : List String) : Json := array (ss.map string)

/-- A number as a value. -/
def ofUInt64 (n : UInt64) : Json := nat n.toNat

/-- A field, unless it is to be left out. -/
def field (name : String) : Option Json → List (String × Json)
  | some j => [(name, j)]
  | none => []

/-- A field for a list, left out if it is empty. -/
def textsField (name : String) (ss : List String) : List (String × Json) :=
  field name (if ss = [] then none else some (texts ss))

end Json

open Json

/-! ### Types and operators -/

/-- A type by its keyword. -/
def ValueType.toJson (t : ValueType) : Json := .string t.keyword

/-- The type of a keyword. -/
def ValueType.ofJson? : Json → Option ValueType :=
  plain? ([uint64, string, unknown].map fun t => (t.keyword, t))

/-- The names of operators, by family. -/
def Comparison.table : List (String × Comparison) :=
  [("Eq", .eq), ("Ne", .ne), ("Lt", .lt), ("Gt", .gt), ("Le", .le), ("Ge", .ge)]

/-- The names of operators, by family. -/
def Arithmetic.table : List (String × Arithmetic) :=
  [("Add", .add), ("Sub", .sub), ("Mul", .mul), ("Div", .div), ("Mod", .mod)]

/-- The names of operators, by family. -/
def Bitwise.table : List (String × Bitwise) :=
  [("And", .and), ("Or", .or), ("Xor", .xor), ("Shl", .shl), ("Shr", .shr), ("Not", .not)]

/-- The name of an entry in a table. -/
def Json.nameIn {α : Type} [DecidableEq α] (table : List (String × α)) (a : α) : Json :=
  .string (((table.find? (·.2 = a)).map (·.1)).getD "")

/-- An operator by its family and name. -/
def Operator.toJson : Operator → Json
  | comparison c => tagged "logical" (nameIn Comparison.table c)
  | arithmetic a => tagged "calc" (nameIn Arithmetic.table a)
  | bitwise b => tagged "bitwise" (nameIn Bitwise.table b)

/-- The operator of a family and name. -/
def Operator.ofJson? (j : Json) : Option Operator :=
  match j.variant? with
  | some ("logical", some c) => (plain? Comparison.table c).map comparison
  | some ("calc", some c) => (plain? Arithmetic.table c).map arithmetic
  | some ("bitwise", some c) => (plain? Bitwise.table c).map bitwise
  | _ => none

/-! ### Expressions -/

/-- A literal. -/
def Literal.toJson : Literal → Json
  | uint64 n => tagged "uint64" (.ofUInt64 n)
  | string s => tagged "string" (.string s)

/-- The literal that a value stands for. -/
def Literal.ofJson? (j : Json) : Option Literal :=
  match j.variant? with
  | some ("uint64", some c) => c.uint64?.map uint64
  | some ("string", some c) => c.string?.map string
  | _ => none

mutual

/-- An expression. -/
def Expression.toJson : Expression → Json
  | .value l => tagged "value" l.toJson
  | .name n => tagged "name" (.string n)
  | .call f args =>
    tagged "call" (.object [("name", .string f), ("args", .array (Expression.toJsons args))])
  | .operation o operands type =>
    tagged "operation" (.object
      [("operator", o.toJson), ("operands", .array (Expression.toJsons operands)),
        ("operation_type", type.toJson)])

/-- Each of several expressions. -/
def Expression.toJsons : List Expression → List Json
  | [] => []
  | e :: es => Expression.toJson e :: Expression.toJsons es

end

/-- The expression that a value stands for, if it is at most `depth` deep. -/
def Expression.ofJsonWithin? : (depth : Nat) → Json → Option Expression
  | 0, _ => none
  | depth + 1, j =>
    match j.variant? with
    | some ("value", some c) => (Literal.ofJson? c).map value
    | some ("name", some c) => c.string?.map name
    | some ("call", some c) =>
      match c.fields? ["name", "args"] with
      | some [f, args] => do
        let f ← required? string? f
        let args ← required? (list? (ofJsonWithin? depth)) args
        pure (call f args)
      | _ => none
    | some ("operation", some c) =>
      match c.fields? ["operator", "operands", "operation_type"] with
      | some [o, operands, type] => do
        let o ← required? Operator.ofJson? o
        let operands ← required? (list? (ofJsonWithin? depth)) operands
        let type ← required? ValueType.ofJson? type
        pure (operation o operands type)
      | _ => none
    | _ => none

/-- The expression that a value stands for. -/
def Expression.ofJson? (j : Json) : Option Expression :=
  ofJsonWithin? j.depth j

/-! ### Programs -/

/-- What a statement does. -/
def StatementKind.toJson : StatementKind → Json
  | noOp => .string "no-op"
  | comment text => tagged "comment" (.string text)
  | result e => tagged "return" e.toJson
  | evaluate e => tagged "expression" e.toJson
  | branch c n otherwise =>
    tagged "branch" (.object
      ([("condition", c.toJson), ("then", .ofUInt64 n)] ++ field "else" (otherwise.map .ofUInt64)))
  | dim n type => tagged "dim" (.object [("name", .string n), ("type", type.toJson)])
  | assign n e => tagged "let" (.object [("name", .string n), ("expression", e.toJson)])
  | goto n => tagged "goto" (.ofUInt64 n)

/-- What the statement of a value does. -/
def StatementKind.ofJson? (j : Json) : Option StatementKind :=
  match j.variant? with
  | some ("no-op", none) | some ("no-op", some .null) => some noOp
  | some ("comment", some c) => c.string?.map comment
  | some ("return", some c) => (Expression.ofJson? c).map result
  | some ("expression", some c) => (Expression.ofJson? c).map evaluate
  | some ("branch", some c) =>
    match c.fields? ["condition", "then", "else"] with
    | some [c, n, otherwise] => do
      let c ← required? Expression.ofJson? c
      let n ← required? uint64? n
      let otherwise ← optional? uint64? otherwise
      pure (branch c n otherwise)
    | _ => none
  | some ("dim", some c) =>
    match c.fields? ["name", "type"] with
    | some [n, type] => do
      let n ← required? string? n
      let type ← required? ValueType.ofJson? type
      pure (dim n type)
    | _ => none
  | some ("let", some c) =>
    match c.fields? ["name", "expression"] with
    | some [n, e] => do
      let n ← required? string? n
      let e ← required? Expression.ofJson? e
      pure (assign n e)
    | _ => none
  | some ("goto", some c) => c.uint64?.map goto
  | _ => none

/-- A statement. -/
def Statement.toJson (s : Statement) : Json :=
  .object [("line", .ofUInt64 s.line), ("kind", s.kind.toJson)]

/-- The statement that a value stands for. -/
def Statement.ofJson? (j : Json) : Option Statement :=
  match j.fields? ["line", "kind"] with
  | some [line, kind] => do
    let line ← required? uint64? line
    let kind ← required? StatementKind.ofJson? kind
    pure ⟨line, kind⟩
  | _ => none

/-- A parameter. -/
def Param.toJson (p : Param) : Json :=
  .object [("name", .string p.name), ("type", p.type.toJson)]

/-- The parameter that a value stands for. -/
def Param.ofJson? (j : Json) : Option Param :=
  match j.fields? ["name", "type"] with
  | some [n, type] => do
    let n ← required? string? n
    let type ← required? ValueType.ofJson? type
    pure ⟨n, type⟩
  | _ => none

/-- A function. -/
def Routine.toJson (r : Routine) : Json :=
  .object
    ([("name", .string r.name), ("return", r.returnType.toJson),
      ("args", .array (r.params.map Param.toJson)),
      ("statements", .array (r.statements.map Statement.toJson))] ++
      textsField "comments" r.comments)

/-- The function that a value stands for. -/
def Routine.ofJson? (j : Json) : Option Routine :=
  match j.fields? ["name", "return", "args", "statements", "comments"] with
  | some [n, type, params, statements, comments] => do
    let n ← required? string? n
    let type ← required? ValueType.ofJson? type
    let params ← required? (list? Param.ofJson?) params
    let statements ← required? (list? Statement.ofJson?) statements
    let comments ← default? (list? string?) [] comments
    pure ⟨n, type, params, statements, comments⟩
  | _ => none

/-- A program. -/
def Program.toJson (p : Program) : Json :=
  .object (textsField "headers" p.headers ++ [("functions", .array (p.routines.map Routine.toJson))])

/-- The program that a value stands for. -/
def Program.ofJson? (j : Json) : Option Program :=
  match j.fields? ["headers", "functions"] with
  | some [headers, routines] => do
    let headers ← default? (list? string?) [] headers
    let routines ← required? (list? Routine.ofJson?) routines
    pure ⟨headers, routines⟩
  | _ => none

/-! ### Written source text -/

/-- A kind by its word. -/
def SymbolKind.toJson (k : SymbolKind) : Json := .string k.word

/-- The kind of a word. -/
def SymbolKind.ofJson? : Json → Option SymbolKind :=
  plain? (SymbolKind.all.map fun k => (k.word, k))

/-- What a short name stood for. -/
def FullName.toJson (o : FullName) : Json :=
  .object ([("name", .string o.name), ("kind", o.kind.toJson)] ++ field "owner" (o.owner.map .string))

/-- What the short name of a value stood for. -/
def FullName.ofJson? (j : Json) : Option FullName :=
  match j.fields? ["name", "kind", "owner"] with
  | some [n, kind, owner] => do
    let n ← required? string? n
    let kind ← required? SymbolKind.ofJson? kind
    let owner ← optional? string? owner
    pure ⟨n, kind, owner⟩
  | _ => none

/-- A way back from short names. -/
def Mapping.toJson (m : Mapping) : Json :=
  .object [("names", .object (m.entries.map fun (k, o) => (k, o.toJson)))]

/-- An object as a map; a key that comes again replaces the value. -/
def Json.map? {α : Type} (value? : Json → Option α) : Json → Option (OrderedMap α)
  | .object fields =>
    let entry? := fun (f : String × Json) => (value? f.2).map fun a => (f.1, a)
    (fields.mapM entry?).map OrderedMap.ofList
  | _ => none

/-- The way back that a value stands for. -/
def Mapping.ofJson? (j : Json) : Option Mapping :=
  match j.fields? ["names"] with
  | some [names] => required? (map? FullName.ofJson?) names
  | _ => none

/-- Written source text. -/
def Generated.toJson (g : Generated) : Json :=
  .object (("code", .string g.code) :: field "mapping" (g.mapping.map Mapping.toJson))

/-- The written source text that a value stands for. -/
def Generated.ofJson? (j : Json) : Option Generated :=
  match j.fields? ["code", "mapping"] with
  | some [code, mapping] => do
    let code ← required? string? code
    let mapping ← optional? Mapping.ofJson? mapping
    pure ⟨code, mapping⟩
  | _ => none

end ContractBasic
