/-
Lines of a text and lines of its program.

The check of a text counts its lines, the check of a program the items that its statements form.  A line
that declares several variables becomes a statement for each, and these form one item again.  So the
checks count the same, unless two lines that follow each other declare variables of one type under one
number: these are one item of the program, and the text is refused.

* `Item.ofStatements_append` — statements form the items of their parts, if no declarations join
* `ParseTree.Routine.Apart` — functions of a text without lines that become one item
* `Routine.takenLines_ofTree` — the items of such a function take up its lines
* `Program.checkLines_ofTree` — what the two checks say of a text and of its program
-/
import ContractBasic.Options
import ContractBasic.Proofs.Program.Lines

namespace ContractBasic

namespace Item

/-! ### Items of two rows -/

/-- What a declaration has to agree with to join an item: the line and the type, if the item declares
variables. -/
def joint? : Item → Option (UInt64 × ValueType)
  | dims line _ type => some (line, type)
  | single _ => none

/-- A declaration in front of items that it cannot join is an item of its own. -/
theorem declare_of_joint?_ne {line : UInt64} {n : String} {type : ValueType} {later : List Item}
    (h : later.head?.bind joint? ≠ some (line, type)) :
    declare line n type later = dims line [n] type :: later := by
  unfold declare
  split
  · rename_i m names t rest
    exact if_neg fun ⟨hm, ht⟩ => h (by rw [← hm, ← ht]; rfl)
  · rfl

theorem declare_append {items : List Item} (h : items ≠ []) (line : UInt64) (n : String)
    (type : ValueType) (later : List Item) :
    declare line n type (items ++ later) = declare line n type items ++ later := by
  obtain ⟨i, rest, rfl⟩ := List.exists_cons_of_ne_nil h
  cases i with
  | dims m names t =>
    rw [List.cons_append]
    simp only [declare]
    split <;> rfl
  | single s => rfl

/-- A declaration in front of items leaves what can join the last of them. -/
theorem joint?_getLast?_declare {items : List Item} (h : items ≠ []) (line : UInt64) (n : String)
    (type : ValueType) :
    (declare line n type items).getLast?.bind joint? = items.getLast?.bind joint? := by
  obtain ⟨i, rest, rfl⟩ := List.exists_cons_of_ne_nil h
  -- at most the first item grows, and it keeps its line and its type
  unfold declare
  split
  · rename_i m names t later heq
    obtain ⟨rfl, rfl⟩ := List.cons.inj heq
    split
    · rename_i hjoins
      cases rest with
      | nil => simp [joint?, hjoins]
      | cons j rest => rw [List.getLast?_cons_cons, List.getLast?_cons_cons]
    · rw [List.getLast?_cons_cons]
  · rw [List.getLast?_cons_cons]

/-- Statements form the items of two parts, if the last item of the first part and the first of the
second do not become one. -/
theorem ofStatements_append {ss ts : List Statement}
    (h : ∀ j, (ofStatements ss).getLast?.bind joint? = some j →
      (ofStatements ts).head?.bind joint? ≠ some j) :
    ofStatements (ss ++ ts) = ofStatements ss ++ ofStatements ts := by
  induction ss with
  | nil => rfl
  | cons s ss ih =>
    obtain ⟨line, kind⟩ := s
    by_cases hnil : ofStatements ss = []
    · -- only the first statement can meet the second part
      obtain rfl : ss = [] := by rw [← flatMap_statements ss, hnil]; rfl
      cases kind with
      | dim n type => exact declare_of_joint?_ne (h (line, type) rfl)
      | _ => rfl
    · cases kind with
      | dim n type =>
        rw [ofStatements_dim, joint?_getLast?_declare hnil] at h
        rw [List.cons_append, ofStatements_dim, ofStatements_dim, ih h, declare_append hnil]
      | _ =>
        rw [ofStatements_cons (by simp), List.getLast?_cons_of_ne_nil hnil] at h
        rw [List.cons_append, ofStatements_cons (by simp), ofStatements_cons (by simp), ih h,
          List.cons_append]

end Item

/-! ### Items of lines -/

namespace ParseTree

/-- The number and the type of a line that declares variables. -/
def Line.declared? (l : Line) : Option (UInt64 × ValueType) :=
  match l.statement with
  | some (.dim _ type) => some (l.number, type)
  | _ => none

/-- Whether no two lines declare variables of one type under one number, of those that hold a statement
and follow each other. -/
def Line.Apart (ls : List Line) : Prop :=
  (ls.filter fun l => l.statement.isSome).IsChain fun l m =>
    l.declared?.isSome = true → l.declared? ≠ m.declared?

instance : DecidablePred Line.Apart := fun ls =>
  inferInstanceAs (Decidable ((ls.filter fun l => l.statement.isSome).IsChain fun l m =>
    l.declared?.isSome = true → l.declared? ≠ m.declared?))

/-- What a line holds forms one item on the line. -/
theorem Line.ofStatements_held {l : Line} {s : Stmt} (hl : l.statement = some s)
    (hdim : ∀ names type, s = .dim names type → names ≠ []) :
    ∃ i, Item.ofStatements l.held = [i] ∧ i.line = l.number ∧ i.joint? = l.declared? := by
  cases s with
  | dim names type =>
    -- the names of one line are declared one by one, each to the item of the names behind it
    have hitems : ∀ names : List String, names ≠ [] →
        Item.ofStatements (names.map fun n => ⟨l.number, .dim n type⟩)
          = [.dims l.number names type] := by
      intro names hne
      induction names with
      | nil => exact absurd rfl hne
      | cons n names ih =>
        rw [List.map_cons, Item.ofStatements_dim]
        cases names with
        | nil => rfl
        | cons m names =>
          rw [ih nofun]
          exact if_pos ⟨rfl, rfl⟩
    refine ⟨.dims l.number names type, ?_, rfl, by rw [declared?, hl]; rfl⟩
    rw [← hitems names (hdim names type rfl), held, hl, Option.map_some, Option.getD_some,
      StatementKind.ofTree, List.map_map]
    rfl
  | _ => exact ⟨.single ⟨l.number, _⟩, by rw [held, hl]; rfl, rfl, by rw [declared?, hl]; rfl⟩

/-- The items that lines form take up the lines, if no two of the lines become one item; and the first
item is that of the first line. -/
theorem Line.takenLines_held {ls : List Line}
    (hdim : ∀ l ∈ ls, ∀ names type, l.statement = some (.dim names type) → names ≠ [])
    (hapart : Apart ls) :
    (Item.ofStatements (ls.flatMap held)).map Item.line = taken ls ∧
      (Item.ofStatements (ls.flatMap held)).head?.bind Item.joint?
        = (ls.filter fun l => l.statement.isSome).head?.bind declared? := by
  induction ls with
  | nil => exact ⟨rfl, rfl⟩
  | cons l ls ih =>
    obtain ⟨hl, hls⟩ := List.forall_mem_cons.mp hdim
    rw [List.flatMap_cons, taken]
    cases hstatement : l.statement with
    | none =>
      have hfilter : (l :: ls).filter (fun l => l.statement.isSome)
          = ls.filter fun l => l.statement.isSome := by
        rw [List.filter_cons_of_neg (by simp [hstatement])]
      rw [Apart, hfilter] at hapart
      rw [held_of_none hstatement, hfilter]
      exact ih hls hapart
    | some s =>
      have hfilter : (l :: ls).filter (fun l => l.statement.isSome)
          = l :: ls.filter fun l => l.statement.isSome := by
        rw [List.filter_cons_of_pos (by simp [hstatement])]
      rw [Apart, hfilter, List.isChain_cons] at hapart
      obtain ⟨hnext, hrest⟩ := hapart
      obtain ⟨hlines, hhead⟩ := ih hls hrest
      obtain ⟨i, hi, hline, hjoint⟩ := ofStatements_held hstatement fun names type hs =>
        hl names type (hs ▸ hstatement)
      have hitems : Item.ofStatements (l.held ++ ls.flatMap held)
          = i :: Item.ofStatements (ls.flatMap held) := by
        rw [Item.ofStatements_append, hi, List.singleton_append]
        intro j hj
        rw [hi, List.getLast?_singleton, Option.bind_some, hjoint] at hj
        rw [hhead]
        intro hsame
        -- the line that follows would declare the same
        obtain ⟨m, hm, hmj⟩ := Option.bind_eq_some_iff.mp hsame
        exact hnext m hm (by rw [hj]; rfl) (hj.trans hmj.symm)
      rw [hitems, hfilter, List.map_cons, hline, hlines, List.map_cons]
      exact ⟨rfl, hjoint⟩

/-- Lines with distinct numbers do not become one item. -/
theorem Line.apart_of_nodup {ls : List Line} (h : (taken ls).Nodup) : Apart ls := by
  rw [taken, List.Nodup, List.pairwise_map] at h
  refine (h.imp fun {l m} hne hl hsame => hne ?_).isChain
  -- lines that declare the same have the same number
  have hnumber : ∀ {k : Line} {j : UInt64 × ValueType}, k.declared? = some j → k.number = j.1 := by
    intro k j hk
    unfold declared? at hk
    split at hk
    · cases hk
      rfl
    · cases hk
  obtain ⟨j, hj⟩ := Option.isSome_iff_exists.mp hl
  rw [hnumber hj, hnumber (hsame ▸ hj)]

/-- Whether no two lines of a function become one item. -/
def Routine.Apart (r : Routine) : Prop := Line.Apart r.lines

instance : DecidablePred Routine.Apart := fun r => inferInstanceAs (Decidable (Line.Apart r.lines))

end ParseTree

/-! ### The two checks -/

/-- The items of a function take up the lines of its text, if no two of these become one. -/
theorem Routine.takenLines_ofTree (keep : Bool) {r : ParseTree.Routine}
    (hdim : ∀ l ∈ r.lines, ∀ names type, l.statement = some (.dim names type) → names ≠ [])
    (hapart : r.Apart) : (ofTree keep r).takenLines = r.takenLines := by
  rw [takenLines, ofTree, ParseTree.Line.filter_statements]
  exact (ParseTree.Line.takenLines_held hdim hapart).1

namespace Program

/-- **What the check of a program says is what the check of its text says**, lines and function
included, unless lines that follow each other become one item; and a program whose text passes the
check passes too. -/
theorem checkLines_ofTree (options : ParseOptions) {t : ParseTree}
    (hdim : ∀ r ∈ t.routines, ∀ l ∈ r.lines, ∀ names type,
      l.statement = some (.dim names type) → names ≠ []) :
    (t.checkLines = .ok () → (ofTree options.keepEmptyLines t).checkLines = .ok ()) ∧
    ((∀ r ∈ t.routines, r.Apart) →
      (ofTree options.keepEmptyLines t).checkLines = t.checkLines) := by
  have hsame : (∀ r ∈ t.routines, r.Apart) →
      (ofTree options.keepEmptyLines t).checkLines = t.checkLines := by
    intro hapart
    refine forM_map_congr fun r hr => ?_
    rw [Routine.takenLines_ofTree _ (hdim r hr) (hapart r hr)]
    rfl
  refine ⟨fun h => ?_, hsame⟩
  -- lines that are taken up once each are apart
  have hnodup := ParseTree.checkLines_eq_ok.mp h
  rw [hsame fun r hr => ParseTree.Line.apart_of_nodup (hnodup r hr), h]

/-- A line that declares several variables, and lines with the same number: one with a comment only and
one that declares a variable of another type.  An empty line and a jump follow. -/
def twiceTaken : ParseTree :=
  ⟨[⟨"F", 9, [], .uint64, [], [⟨1, 20, some (.dim ["a", "b"] .uint64), []⟩,
    ⟨1, 41, none, [⟨43, "//x"⟩]⟩, ⟨1, 47, some (.dim ["s"] .string), []⟩, ⟨2, 64, none, []⟩,
    ⟨3, 66, some (.goto 1), []⟩]⟩], []⟩

theorem checkLines_ofTree_twiceTaken :
    (∀ r ∈ twiceTaken.routines, ∀ l ∈ r.lines, ∀ names type,
      l.statement = some (.dim names type) → names ≠ []) ∧
    (∀ r ∈ twiceTaken.routines, r.Apart) ∧
    (ofTree true twiceTaken).checkLines = .error (.duplicateLines "F" [1]) ∧
    twiceTaken.checkLines = .error (.duplicateLines "F" [1]) := by
  have hdim : ∀ r ∈ twiceTaken.routines, ∀ l ∈ r.lines, ∀ names type,
      l.statement = some (.dim names type) → names ≠ [] := by
    simp [twiceTaken]
  have hapart : ∀ r ∈ twiceTaken.routines, r.Apart := by decide
  have htree : twiceTaken.checkLines = .error (.duplicateLines "F" [1]) := by decide
  refine ⟨hdim, hapart, ?_, htree⟩
  rw [← htree]
  exact (checkLines_ofTree ⟨true, false⟩ hdim).2 hapart

end Program

end ContractBasic
