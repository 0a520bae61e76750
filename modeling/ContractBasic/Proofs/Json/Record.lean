/-
Records and lists as JSON values.

A record is written field by field and read by the names of its fields.  A field that is left out is
missing when it is read, and the others are found in the order of their names, for no name is given twice.
A list is read back if each of its items is.

* `Json.record`, `Json.fields?_record` — what is written under different names is read under them
* `Json.list?_map`, `Json.optional?_map` — lists and values that may be missing
* `Json.depth_lt_array`, `Json.depth_lt_object` — what stands in a value is less deep
* `Json.Portable` — the values that a text form keeps as they are
-/
import ContractBasic.Program.Json
import Mathlib.Data.List.Nodup

namespace ContractBasic.Json

/-! ### Lists and simple values -/

theorem mapM_eq_some_map {α β : Type} {f : α → Option β} {g : α → β} {l : List α}
    (h : ∀ a ∈ l, f a = some (g a)) : l.mapM f = some (l.map g) := by
  induction l with
  | nil => rfl
  | cons a l ih =>
    obtain ⟨ha, hl⟩ := List.forall_mem_cons.mp h
    rw [List.mapM_cons, ha, ih hl]
    rfl

/-- A list whose items are read back is read back. -/
theorem list?_map {α : Type} {item? : Json → Option α} {toJson : α → Json} {as : List α}
    (h : ∀ a ∈ as, item? (toJson a) = some a) : list? item? (array (as.map toJson)) = some as := by
  have hitems : (as.map toJson).mapM item? = some (as.map id) := by
    rw [List.mapM_map]
    exact mapM_eq_some_map h
  rw [List.map_id] at hitems
  exact hitems

theorem list?_texts (ss : List String) : list? string? (texts ss) = some ss :=
  list?_map fun _ _ => rfl

theorem uint64?_ofUInt64 (n : UInt64) : (ofUInt64 n).uint64? = some n := by
  rw [ofUInt64, uint64?, if_pos n.toNat_lt_size, UInt64.ofNat_toNat]

/-- A value that may be missing is read back if it is never written as null. -/
theorem optional?_map {α : Type} {value? : Json → Option α} {toJson : α → Json}
    (hvalue : ∀ a, value? (toJson a) = some a) (hnull : ∀ a, toJson a ≠ null) (a? : Option α) :
    optional? value? (a?.map toJson) = some a? := by
  cases a? with
  | none => rfl
  | some a =>
    rw [Option.map_some]
    unfold optional?
    split
    · rename_i hnone
      cases hnone
    · rename_i hj
      exact absurd (Option.some.inj hj) (hnull a)
    · rename_i hj
      cases hj
      rw [hvalue]
      rfl

theorem default?_texts (ss : List String) :
    default? (list? string?) [] (if ss = [] then none else some (texts ss)) = some ss := by
  by_cases h : ss = []
  · rw [if_pos h, h]
    rfl
  · rw [if_neg h]
    exact list?_texts ss

/-! ### Alternatives and records -/

theorem variant?_tagged (name : String) (content : Json) :
    (tagged name content).variant? = some (name, some content) := rfl

/-- The fields of an object. -/
def keys : Json → List String
  | object fields => fields.map Prod.fst
  | _ => []

/-- A record: an object with these values under these names, less those that are left out. -/
def record (names : List String) (values : List (Option Json)) : Json :=
  object ((names.zip values).flatMap fun f => field f.1 f.2)

/-- A record has the fields that are not left out, in the order of their names. -/
theorem keys_record (names : List String) (values : List (Option Json)) :
    (record names values).keys = ((names.zip values).filter (·.2.isSome)).map Prod.fst := by
  rw [record, keys]
  induction names.zip values with
  | nil => rfl
  | cons f fs ih =>
    obtain ⟨name, j?⟩ := f
    rw [List.flatMap_cons, List.map_append, ih]
    cases j? <;> rfl

theorem mem_of_mem_record {name : String} {j : Json} {names : List String}
    {values : List (Option Json)}
    (h : (name, j) ∈ (names.zip values).flatMap fun f => field f.1 f.2) :
    name ∈ names ∧ some j ∈ values := by
  obtain ⟨⟨n, j?⟩, hmem, hfield⟩ := List.mem_flatMap.mp h
  cases j? with
  | none => cases hfield
  | some _ =>
    cases List.mem_singleton.mp hfield
    exact ⟨(List.of_mem_zip hmem).1, (List.of_mem_zip hmem).2⟩

/-- The fields of one name are that which was written under it. -/
theorem filter_record {names : List String} {values : List (Option Json)} (hnames : names.Nodup)
    {name : String} {j? : Option Json} (hmem : (name, j?) ∈ names.zip values) :
    ((names.zip values).flatMap fun f => field f.1 f.2).filter (·.1 = name) = field name j? := by
  induction names generalizing values with
  | nil => cases hmem
  | cons n names ih =>
    obtain ⟨hn, hnames⟩ := List.nodup_cons.mp hnames
    cases values with
    | nil => cases hmem
    | cons v values =>
      rw [List.zip_cons_cons, List.flatMap_cons, List.filter_append]
      rw [List.zip_cons_cons, List.mem_cons] at hmem
      rcases hmem with hhead | hmem
      · -- the name is not given again behind its field
        cases hhead
        have hhere : (field name j?).filter (·.1 = name) = field name j? := by
          cases j? <;> simp [field]
        have hrest : ((names.zip values).flatMap fun f => field f.1 f.2).filter (·.1 = name) = [] := by
          refine List.filter_eq_nil_iff.mpr fun ⟨k, j⟩ hj hk => hn ?_
          obtain rfl : k = name := of_decide_eq_true hk
          exact (mem_of_mem_record hj).1
        rw [hhere, hrest, List.append_nil]
      · -- the first field has another name, if it is there at all
        have hne : n ≠ name := fun heq => hn (heq ▸ (List.of_mem_zip hmem).1)
        have hhere : (field n v).filter (·.1 = name) = [] := by
          cases v <;> simp [field, hne]
        rw [hhere, ih hnames hmem, List.nil_append]

/-- **What is written under different names is read under them.** -/
theorem fields?_record {names : List String} {values : List (Option Json)} (hnames : names.Nodup)
    (hlength : names.length = values.length) :
    (record names values).fields? names = some values := by
  -- names and values are taken as one list, whose members say under which name which value stands
  let fields := (names.zip values).flatMap fun f => field f.1 f.2
  have hfield : ∀ f ∈ names.zip values, field? fields f.1 = some f.2 := by
    rintro ⟨name, j?⟩ hmem
    rw [field?, filter_record hnames hmem]
    cases j? <;> rfl
  have hfst : (names.zip values).map Prod.fst = names := List.map_fst_zip (Nat.le_of_eq hlength)
  have hsnd : (names.zip values).map Prod.snd = values := List.map_snd_zip (Nat.le_of_eq hlength.symm)
  calc names.mapM (field? fields)
      = ((names.zip values).map Prod.fst).mapM (field? fields) := by rw [hfst]
    _ = (names.zip values).mapM (field? fields ∘ Prod.fst) := List.mapM_map
    _ = some ((names.zip values).map Prod.snd) := mapM_eq_some_map hfield
    _ = some values := by rw [hsnd]

/-! ### Depth -/

theorem depth_le_depthOfItems {j : Json} {items : List Json} (h : j ∈ items) :
    j.depth ≤ depthOfItems items := by
  induction items with
  | nil => cases h
  | cons i items ih =>
    rw [depthOfItems]
    rcases List.mem_cons.mp h with rfl | h
    · exact Nat.le_max_left ..
    · exact Nat.le_trans (ih h) (Nat.le_max_right ..)

theorem depth_le_depthOfFields {f : String × Json} {fields : List (String × Json)}
    (h : f ∈ fields) : f.2.depth ≤ depthOfFields fields := by
  induction fields with
  | nil => cases h
  | cons g fields ih =>
    rw [depthOfFields]
    rcases List.mem_cons.mp h with rfl | h
    · exact Nat.le_max_left ..
    · exact Nat.le_trans (ih h) (Nat.le_max_right ..)

/-- An item of an array is less deep than the array. -/
theorem depth_lt_array {j : Json} {items : List Json} (h : j ∈ items) :
    j.depth < (array items).depth := by
  rw [depth]
  exact Nat.lt_succ_of_le (depth_le_depthOfItems h)

/-- A field of an object is less deep than the object. -/
theorem depth_lt_object {f : String × Json} {fields : List (String × Json)} (h : f ∈ fields) :
    f.2.depth < (object fields).depth := by
  rw [depth]
  exact Nat.lt_succ_of_le (depth_le_depthOfFields h)

/-- A value of a record is less deep than the record. -/
theorem depth_lt_record {names : List String} {values : List (Option Json)}
    (hlength : names.length = values.length) {j : Json} (h : some j ∈ values) :
    j.depth < (record names values).depth := by
  rw [← List.map_snd_zip (Nat.le_of_eq hlength.symm)] at h
  obtain ⟨⟨name, _⟩, hmem, rfl⟩ := List.mem_map.mp h
  exact depth_lt_object (f := (name, j)) (List.mem_flatMap.mpr ⟨_, hmem, List.mem_singleton_self _⟩)

theorem depth_lt_tagged (name : String) (content : Json) :
    content.depth < (tagged name content).depth :=
  depth_lt_object (f := (name, content)) (List.mem_singleton_self _)

theorem depth_pos (j : Json) : 0 < j.depth := by
  cases j with
  | array items => exact Nat.succ_pos _
  | object fields => exact Nat.succ_pos _
  | _ => exact Nat.one_pos

/-! ### Portable values -/

/-- Whether a text form keeps a value as it is: its numbers have at most 64 bits, its texts have a Unicode
form, and no object gives a key twice. -/
inductive Portable : Json → Prop where
  | null : Portable null
  | bool (b : Bool) : Portable (bool b)
  | nat {n : Nat} (h : n < UInt64.size) : Portable (nat n)
  | string (s : String) : Portable (string s)
  | array {items : List Json} (h : ∀ j ∈ items, Portable j) : Portable (array items)
  | object {fields : List (String × Json)} (hkeys : (fields.map Prod.fst).Nodup)
      (h : ∀ f ∈ fields, Portable f.2) : Portable (object fields)

theorem portable_ofUInt64 (n : UInt64) : (ofUInt64 n).Portable := .nat n.toNat_lt_size

theorem portable_map {α : Type} {toJson : α → Json} {as : List α}
    (h : ∀ a ∈ as, (toJson a).Portable) : (array (as.map toJson)).Portable :=
  .array (List.forall_mem_map.mpr h)

theorem portable_texts (ss : List String) : (texts ss).Portable := portable_map fun s _ => .string s

theorem portable_tagged (name : String) {content : Json} (h : content.Portable) :
    (tagged name content).Portable :=
  .object (List.nodup_singleton name) (List.forall_mem_singleton.mpr h)

/-- A record of portable values under different names is portable. -/
theorem portable_record {names : List String} {values : List (Option Json)} (hnames : names.Nodup)
    (hlength : names.length = values.length) (h : ∀ j? ∈ values, ∀ j ∈ j?, j.Portable) :
    (record names values).Portable := by
  refine .object ?_ fun ⟨name, j⟩ hmem => h _ (mem_of_mem_record hmem).2 j rfl
  have hkeys : (record names values).keys.Sublist names := by
    rw [keys_record]
    conv_rhs => rw [← List.map_fst_zip (Nat.le_of_eq hlength)]
    exact List.filter_sublist.map Prod.fst
  exact hnames.sublist hkeys

end ContractBasic.Json
