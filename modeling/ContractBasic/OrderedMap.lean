/-
Maps from names that remember the order in which their keys came.

A key that is inserted again keeps its place and takes the new value.

* `OrderedMap.insert`, `OrderedMap.get?`
* `OrderedMap.keys_insert` — the keys after an insertion
* `OrderedMap.get?_insert` — the last value inserted is the one found
-/

namespace ContractBasic

/-- A map from names, its keys in the order of their first insertion. -/
structure OrderedMap (α : Type) where
  entries : List (String × α)
  nodup : (entries.map Prod.fst).Nodup
deriving DecidableEq

namespace OrderedMap

variable {α : Type}

/-- The map without keys. -/
def empty : OrderedMap α := ⟨[], by simp⟩

/-- The keys in the order of their first insertion. -/
def keys (m : OrderedMap α) : List String := m.entries.map Prod.fst

/-- The value of a key. -/
def get? (m : OrderedMap α) (k : String) : Option α := m.entries.lookup k

/-! ### Insertion -/

/-- The entries with `v` at the place of key `k`, or behind them all if `k` is new. -/
def put (k : String) (v : α) : List (String × α) → List (String × α)
  | [] => [(k, v)]
  | e :: es => if e.1 = k then (k, v) :: es else e :: put k v es

theorem map_fst_put (k : String) (v : α) (es : List (String × α)) :
    (put k v es).map Prod.fst =
      if k ∈ es.map Prod.fst then es.map Prod.fst else es.map Prod.fst ++ [k] := by
  induction es with
  | nil => simp [put]
  | cons e es ih =>
    by_cases h : e.1 = k
    · simp [put, h]
    · have hk : k ≠ e.1 := fun h' => h h'.symm
      simp only [put, h, if_false, List.map_cons, ih, List.mem_cons, hk, false_or]
      split <;> simp

theorem nodup_put {k : String} {v : α} {es : List (String × α)} (h : (es.map Prod.fst).Nodup) :
    ((put k v es).map Prod.fst).Nodup := by
  rw [map_fst_put]
  split
  · exact h
  · rename_i hk
    rw [List.nodup_append]
    refine ⟨h, by simp, ?_⟩
    intro a ha b hb
    rw [List.mem_singleton] at hb
    exact fun hab => hk (hb ▸ hab ▸ ha)

/-- The map with value `v` at key `k`. -/
def insert (m : OrderedMap α) (k : String) (v : α) : OrderedMap α :=
  ⟨put k v m.entries, nodup_put m.nodup⟩

theorem keys_insert (m : OrderedMap α) (k : String) (v : α) :
    (m.insert k v).keys = if k ∈ m.keys then m.keys else m.keys ++ [k] :=
  map_fst_put k v m.entries

theorem lookup_put (k l : String) (v : α) (es : List (String × α)) :
    (put k v es).lookup l = if l = k then some v else es.lookup l := by
  induction es with
  | nil =>
    by_cases h : l = k
    · simp [put, h]
    · simp [put, List.lookup_cons, h, beq_eq_false_iff_ne.mpr h]
  | cons e es ih =>
    obtain ⟨f, w⟩ := e
    by_cases hf : f = k
    · subst hf
      by_cases h : l = f
      · simp [put, h]
      · simp [put, List.lookup_cons, h, beq_eq_false_iff_ne.mpr h]
    · by_cases h : l = f
      · subst h
        simp [put, hf]
      · simp [put, List.lookup_cons, hf, beq_eq_false_iff_ne.mpr h, ih]

theorem get?_insert (m : OrderedMap α) (k l : String) (v : α) :
    (m.insert k v).get? l = if l = k then some v else m.get? l :=
  lookup_put k l v m.entries

/-- The map that takes the entries in order. -/
def ofList (es : List (String × α)) : OrderedMap α :=
  es.foldl (fun m e => m.insert e.1 e.2) empty

end OrderedMap

end ContractBasic
