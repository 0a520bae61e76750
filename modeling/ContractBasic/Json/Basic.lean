/-
JSON values.

Objects keep their fields in order and may repeat a key: what a repetition means is for the decoder
to say.  A value that holds text outside Unicode, such as half of a surrogate pair, can stand where
nobody looks at it, and is kept as `garbled`.

* `Json` — values
* `Json.fields?` — the fields of a record, written as an object or as an array
* `Json.variant?` — the name and the content of an alternative
-/
import ContractBasic.OrderedMap

namespace ContractBasic

/-- A JSON value. -/
inductive Json where
  | null
  | bool (b : Bool)
  /-- A number written with digits alone. -/
  | nat (n : Nat)
  /-- Any other number, as it is written. -/
  | number (literal : String)
  | string (s : String)
  | array (items : List Json)
  | object (fields : List (String × Json))
  /-- A text, or an object with a key, that has no Unicode form. -/
  | garbled
deriving Repr

namespace Json

/-! ### Simple values -/

/-- The truth value. -/
def bool? : Json → Option Bool
  | bool b => some b
  | _ => none

/-- The text. -/
def string? : Json → Option String
  | string s => some s
  | _ => none

/-- The number, if it has at most 64 bits. -/
def uint64? : Json → Option UInt64
  | nat n => if n < UInt64.size then some (UInt64.ofNat n) else none
  | _ => none

/-- The items of an array. -/
def array? : Json → Option (List Json)
  | array items => some items
  | _ => none

/-- A list, item by item. -/
def list? {α : Type} (item? : Json → Option α) (j : Json) : Option (List α) :=
  j.array?.bind fun items => items.mapM item?

/-- A value that may be missing or null. -/
def optional? {α : Type} (value? : Json → Option α) : Option Json → Option (Option α)
  | none | some null => some none
  | some j => (value? j).map some

/-- A value that may be missing, but not null. -/
def default? {α : Type} (value? : Json → Option α) (default : α) : Option Json → Option α
  | none => some default
  | some j => value? j

/-- A value that must be there. -/
def required? {α : Type} (value? : Json → Option α) (field : Option Json) : Option α :=
  field.bind value?

/-! ### Records and alternatives -/

/-- The value of a field of an object; it must not be given twice. -/
def field? (fields : List (String × Json)) (name : String) : Option (Option Json) :=
  match fields.filter (·.1 = name) with
  | [] => some none
  | [(_, j)] => some (some j)
  | _ => none

/-- The fields of a record, in the order of their names.  An object may hold others beside them; an
array gives them by position and may leave out the last ones. -/
def fields? (names : List String) : Json → Option (List (Option Json))
  | object fields => names.mapM (field? fields)
  | array items =>
    if items.length ≤ names.length then
      some (items.map some ++ List.replicate (names.length - items.length) none)
    else
      none
  | _ => none

/-- An alternative: its name, and its content unless it is a plain text. -/
def variant? : Json → Option (String × Option Json)
  | string s => some (s, none)
  | object [(name, content)] => some (name, some content)
  | _ => none

/-- An alternative without content, from a table of names. -/
def plain? {α : Type} (table : List (String × α)) (j : Json) : Option α :=
  match j.variant? with
  | some (name, none) | some (name, some null) => table.lookup name
  | _ => none

/-- A single field. -/
def tagged (name : String) (content : Json) : Json := object [(name, content)]

mutual

/-- How deep values stand in each other. -/
def depth : Json → Nat
  | array items => depthOfItems items + 1
  | object fields => depthOfFields fields + 1
  | _ => 1

/-- How deep the items of an array go. -/
def depthOfItems : List Json → Nat
  | [] => 0
  | j :: js => max (depth j) (depthOfItems js)

/-- How deep the fields of an object go. -/
def depthOfFields : List (String × Json) → Nat
  | [] => 0
  | (_, j) :: fs => max (depth j) (depthOfFields fs)

end

end Json

end ContractBasic
