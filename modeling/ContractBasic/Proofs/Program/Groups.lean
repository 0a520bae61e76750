/-
Groups of statements, and the lines that several of them stand on.

Statements that follow each other and declare variables of one type on one line form a group, and so
does every other statement alone.  The items of a function are its groups: they are the maximal runs of
such declarations, they begin where one pass over the statements finds that a new group does, and the
check of lines reports the lines of the first function that has two groups on one.

* `Statement.joins`, `Routine.groups` — what stands together, and the groups of a function
* `Item.map_statements_ofStatements` — the items that statements form are their maximal runs
* `Statement.leaders`, `Routine.takenLines_eq` — the first statements of the groups, found in one pass
  that remembers what the statement before declares, stand on the lines of the items
* `mem_repeated`, `pairwise_repeated` — the numbers that occur more than once, in ascending order
* `Program.checkLines_groups` — what the check of lines reports
-/
import ContractBasic.Proofs.Program.SourceLines
import Mathlib.Data.List.Sort
import Mathlib.Data.List.SplitBy

namespace ContractBasic

/-! ### Runs of declarations -/

namespace Statement

/-- The line and the type of a statement that declares a variable. -/
def declared? (s : Statement) : Option (UInt64 × ValueType) :=
  match s.kind with
  | .dim _ type => some (s.line, type)
  | _ => none

/-- Whether two statements declare variables of one type on one line. -/
def joins (a b : Statement) : Bool := a.declared?.isSome && a.declared? = b.declared?

/-- The statements that open a group, in one pass; `previous?` is what the statement before
declares. -/
def leaders (previous? : Option (UInt64 × ValueType)) : List Statement → List Statement
  | [] => []
  | s :: ss =>
    if s.declared?.isSome ∧ previous? = s.declared? then leaders s.declared? ss
    else s :: leaders s.declared? ss

theorem declared?_eq_none {s : Statement} (h : ∀ n type, s.kind ≠ .dim n type) :
    s.declared? = none := by
  obtain ⟨line, kind⟩ := s
  cases kind with
  | dim n type => exact absurd rfl (h n type)
  | _ => rfl

end Statement

namespace Item

/-- A declaration joins the first of the items, or is an item of its own. -/
theorem declare_cases (line : UInt64) (n : String) (type : ValueType) (later : List Item) :
    (∃ names rest, later = dims line names type :: rest ∧
      declare line n type later = dims line (n :: names) type :: rest) ∨
    (later.head?.bind joint? ≠ some (line, type) ∧
      declare line n type later = dims line [n] type :: later) := by
  by_cases hjoint : later.head?.bind joint? = some (line, type)
  · obtain ⟨i, hi, hitem⟩ := Option.bind_eq_some_iff.mp hjoint
    obtain ⟨rest, rfl⟩ := List.head?_eq_some_iff.mp hi
    cases i with
    | single s => cases hitem
    | dims m names t =>
      cases hitem
      exact .inl ⟨names, rest, rfl, if_pos ⟨rfl, rfl⟩⟩
  · exact .inr ⟨hjoint, declare_of_joint?_ne hjoint⟩

/-- The statements of an item stand on its line and declare what can join it. -/
theorem declared?_of_mem_statements {ss : List Statement} :
    ∀ i ∈ ofStatements ss, ∀ s ∈ i.statements, s.line = i.line ∧ s.declared? = i.joint? := by
  -- an item that declares variables does so on one line and with one type
  have hdims : ∀ line names type, ∀ s ∈ (dims line names type).statements,
      s.line = line ∧ s.declared? = some (line, type) := by
    intro line names type s hs
    obtain ⟨n, -, rfl⟩ := List.mem_map.mp hs
    exact ⟨rfl, rfl⟩
  induction ss with
  | nil => nofun
  | cons s ss ih =>
    intro i hi
    obtain ⟨line, kind⟩ := s
    by_cases hdim : ∃ n type, kind = .dim n type
    · obtain ⟨n, type, rfl⟩ := hdim
      rw [ofStatements_dim] at hi
      obtain ⟨names, rest, hlater, hitems⟩ | ⟨-, hitems⟩ := declare_cases line n type (ofStatements ss)
      · rw [hitems] at hi
        rcases List.mem_cons.mp hi with rfl | hi
        · exact hdims line (n :: names) type
        · exact ih i (hlater ▸ List.mem_cons_of_mem _ hi)
      · rw [hitems] at hi
        rcases List.mem_cons.mp hi with rfl | hi
        · exact hdims line [n] type
        · exact ih i hi
    · have hkind : ∀ n type, kind ≠ .dim n type := fun n type h => hdim ⟨n, type, h⟩
      rw [ofStatements_cons hkind] at hi
      rcases List.mem_cons.mp hi with rfl | hi
      · intro s hs
        rw [List.mem_singleton.mp hs]
        exact ⟨rfl, Statement.declared?_eq_none hkind⟩
      · exact ih i hi

/-- Of items that follow each other none joins the next. -/
theorem isChain_ofStatements (ss : List Statement) :
    (ofStatements ss).IsChain fun i j => i.joint?.isSome = true → i.joint? ≠ j.joint? := by
  induction ss with
  | nil => exact .nil
  | cons s ss ih =>
    obtain ⟨line, kind⟩ := s
    by_cases hdim : ∃ n type, kind = .dim n type
    · obtain ⟨n, type, rfl⟩ := hdim
      rw [ofStatements_dim]
      obtain ⟨names, rest, hlater, hitems⟩ | ⟨hjoint, hitems⟩ :=
        declare_cases line n type (ofStatements ss)
      · -- one more name changes nothing about what can join the item
        rw [hitems]
        rw [hlater] at ih
        exact List.isChain_cons.mpr (List.isChain_cons.mp ih)
      · rw [hitems]
        refine List.isChain_cons.mpr ⟨?_, ih⟩
        intro j hj _ hsame
        refine hjoint ?_
        rw [hj]
        exact hsame.symm
    · have hkind : ∀ n type, kind ≠ .dim n type := fun n type h => hdim ⟨n, type, h⟩
      rw [ofStatements_cons hkind]
      exact List.isChain_cons.mpr ⟨fun j _ hsome => absurd hsome (by simp [joint?]), ih⟩

/-- **The items that statements form are their maximal runs of declarations** of one type on one line,
and the other statements alone. -/
theorem map_statements_ofStatements (ss : List Statement) :
    (ofStatements ss).map statements = ss.splitBy Statement.joins := by
  symm
  -- four things make these the runs: they are all of the list, none is empty, inside one all join,
  -- and none joins the next
  refine List.splitBy_eq_iff.mpr ⟨?_, ?_, ?_, ?_⟩
  · rw [← List.flatMap_def, flatMap_statements]
  · intro hnil
    obtain ⟨i, hi, hempty⟩ := List.mem_map.mp hnil
    exact statements_ne_nil i hi hempty
  · intro g hg
    obtain ⟨i, hi, rfl⟩ := List.mem_map.mp hg
    cases i with
    | single s => exact List.isChain_singleton s
    | dims line names type =>
      refine (List.pairwise_of_forall_mem_list ?_).isChain
      intro a ha b hb
      obtain ⟨-, ha⟩ := declared?_of_mem_statements _ hi a ha
      obtain ⟨-, hb⟩ := declared?_of_mem_statements _ hi b hb
      simp [Statement.joins, ha, hb, joint?]
  · rw [List.isChain_map]
    refine (isChain_ofStatements ss).imp_of_mem_imp ?_
    intro i j hi hj hapart
    have hne := statements_ne_nil i hi
    have hne' := statements_ne_nil j hj
    refine ⟨hne, hne', ?_⟩
    obtain ⟨-, hlast⟩ := declared?_of_mem_statements i hi _ (List.getLast_mem hne)
    obtain ⟨-, hhead⟩ := declared?_of_mem_statements j hj _ (List.head_mem hne')
    rw [Statement.joins, hlast, hhead]
    by_cases hsome : i.joint?.isSome = true
    · simp [hapart hsome]
    · simp [hsome]

/-- The lines of the items that statements form are those of the statements that open a group, but for
the first item if what comes before joins it. -/
theorem map_line_leaders (previous? : Option (UInt64 × ValueType)) (ss : List Statement) :
    (Statement.leaders previous? ss).map (·.line)
      = if previous?.isSome ∧ previous? = (ofStatements ss).head?.bind joint?
        then (ofStatements ss).tail.map line else (ofStatements ss).map line := by
  induction ss generalizing previous? with
  | nil => simp [Statement.leaders, ofStatements]
  | cons s ss ih =>
    obtain ⟨l, kind⟩ := s
    by_cases hdim : ∃ n type, kind = .dim n type
    · obtain ⟨n, type, rfl⟩ := hdim
      have hdeclared : Statement.declared? ⟨l, .dim n type⟩ = some (l, type) := rfl
      -- what the pass finds behind the declaration are the items behind the one it belongs to
      have hlater : ∃ names later, declare l n type (ofStatements ss) = dims l names type :: later ∧
          (Statement.leaders (some (l, type)) ss).map (·.line) = later.map line := by
        obtain ⟨names, rest, hitems, hdeclare⟩ | ⟨hjoint, hdeclare⟩ :=
          declare_cases l n type (ofStatements ss)
        · refine ⟨n :: names, rest, hdeclare, ?_⟩
          rw [ih, hitems]
          simp [joint?]
        · refine ⟨[n], ofStatements ss, hdeclare, ?_⟩
          rw [ih, if_neg fun h => hjoint h.2.symm]
      obtain ⟨names, later, hdeclare, hleaders⟩ := hlater
      rw [ofStatements_dim, hdeclare, Statement.leaders, hdeclared]
      by_cases hprevious : previous? = some (l, type)
      · simp [hprevious, hleaders, joint?]
      · simp [hprevious, hleaders, joint?, line]
    · have hkind : ∀ n type, kind ≠ .dim n type := fun n type h => hdim ⟨n, type, h⟩
      have hdeclared : Statement.declared? ⟨l, kind⟩ = none := Statement.declared?_eq_none hkind
      have hopen : ¬(previous?.isSome = true ∧ previous? = none) := by
        rintro ⟨hsome, rfl⟩
        cases hsome
      rw [ofStatements_cons hkind, Statement.leaders, hdeclared, if_neg (by simp), List.map_cons, ih]
      simp [joint?, line, hopen]

/-- The pass over the statements finds the lines of their items. -/
theorem map_line_ofStatements (ss : List Statement) :
    (ofStatements ss).map line = (Statement.leaders none ss).map (·.line) := by
  rw [map_line_leaders, if_neg (by simp)]

end Item

/-! ### Numbers that occur more than once -/

theorem mem_insertAscending {m n : UInt64} {ns : List UInt64} :
    m ∈ insertAscending n ns ↔ m = n ∨ m ∈ ns := by
  induction ns with
  | nil => simp [insertAscending]
  | cons k ns ih =>
    rw [insertAscending]
    split
    · simp
    · split
      · rename_i heq
        simp [heq]
      · rw [List.mem_cons, ih, List.mem_cons]
        exact or_left_comm

/-- A number is put in its place. -/
theorem pairwise_insertAscending {n : UInt64} {ns : List UInt64} (h : ns.Pairwise (· < ·)) :
    (insertAscending n ns).Pairwise (· < ·) := by
  induction ns with
  | nil => exact List.pairwise_singleton _ _
  | cons k ns ih =>
    obtain ⟨hk, hns⟩ := List.pairwise_cons.mp h
    rw [insertAscending]
    -- a number that is there is not put in again, which is what keeps the order strict
    split
    · rename_i hlt
      refine List.pairwise_cons.mpr ⟨?_, h⟩
      intro m hm
      rcases List.mem_cons.mp hm with rfl | hm
      · exact hlt
      · exact UInt64.lt_trans hlt (hk m hm)
    · split
      · exact h
      · -- put further back, the number is still larger than the ones before it
        rename_i hnlt hne
        refine List.pairwise_cons.mpr ⟨?_, ih hns⟩
        intro m hm
        rcases mem_insertAscending.mp hm with rfl | hm
        · exact UInt64.lt_of_le_of_ne (UInt64.not_lt.mp hnlt) (Ne.symm hne)
        · exact hk m hm

/-- The numbers that occur more than once are those that are found. -/
theorem mem_repeated {n : UInt64} {ns : List UInt64} : n ∈ repeated ns ↔ 2 ≤ ns.count n := by
  have hfold : ∀ ms : List UInt64, n ∈ ms.foldr insertAscending [] ↔ n ∈ ms := by
    intro ms
    induction ms with
    | nil => rfl
    | cons m ms ih => rw [List.foldr_cons, mem_insertAscending, ih, List.mem_cons]
  rw [repeated, hfold, List.mem_filter, decide_eq_true_eq]
  refine and_iff_right_of_imp ?_
  intro hcount
  exact List.count_pos_iff.mp (Nat.lt_of_succ_lt hcount)

/-- They are found in ascending order and once each. -/
theorem pairwise_repeated (ns : List UInt64) : (repeated ns).Pairwise (· < ·) := by
  rw [repeated]
  induction ns.filter fun n => 1 < ns.count n with
  | nil => exact .nil
  | cons m ms ih => exact pairwise_insertAscending ih

/-! ### Lines with several groups -/

/-- Whether a group of statements stands on a line. -/
def StandsOn (n : UInt64) (group : List Statement) : Prop := ∃ s ∈ group, s.line = n

instance (n : UInt64) : DecidablePred (StandsOn n) := fun group =>
  inferInstanceAs (Decidable (∃ s ∈ group, s.line = n))

namespace Routine

/-- The groups of a function.  Comments and empty lines belong to none and separate none. -/
def groups (r : Routine) : List (List Statement) :=
  (r.statements.filter fun s => s.kind.isExecutable).splitBy Statement.joins

/-- Whether no two groups of a function stand on one line. -/
def GroupsApart (r : Routine) : Prop :=
  r.groups.Pairwise fun g h => ∀ n, StandsOn n g → ¬StandsOn n h

/-- The statements of a function that open a group. -/
def leaders (r : Routine) : List Statement :=
  Statement.leaders none (r.statements.filter fun s => s.kind.isExecutable)

/-- A function takes up the lines of the statements that open a group. -/
theorem takenLines_eq (r : Routine) : r.takenLines = r.leaders.map (·.line) :=
  Item.map_line_ofStatements _

/-- The groups of a function are the statements of its items. -/
theorem groups_eq (r : Routine) : r.groups
    = (Item.ofStatements (r.statements.filter fun s => s.kind.isExecutable)).map Item.statements :=
  (Item.map_statements_ofStatements _).symm

end Routine

/-- The statements of an item stand on its line and on no other. -/
theorem Item.standsOn_statements {ss : List Statement} {i : Item} (hi : i ∈ ofStatements ss)
    (n : UInt64) : StandsOn n i.statements ↔ i.line = n := by
  constructor
  · rintro ⟨s, hs, rfl⟩
    exact (declared?_of_mem_statements i hi s hs).1.symm
  · intro hline
    obtain ⟨s, hs⟩ := List.exists_mem_of_ne_nil _ (statements_ne_nil i hi)
    exact ⟨s, hs, (declared?_of_mem_statements i hi s hs).1.trans hline⟩

namespace Routine

/-- The lines of a function are distinct exactly if no two groups stand on one. -/
theorem nodup_takenLines_iff {r : Routine} : r.takenLines.Nodup ↔ r.GroupsApart := by
  rw [GroupsApart, groups_eq, takenLines, List.Nodup, List.pairwise_map, List.pairwise_map]
  refine List.Pairwise.iff_of_mem ?_
  intro i j hi hj
  simp only [Item.standsOn_statements hi, Item.standsOn_statements hj, forall_eq']
  exact ne_comm

/-- A line is taken up once by each group that stands on it. -/
theorem count_takenLines (r : Routine) (n : UInt64) :
    r.takenLines.count n = r.groups.countP (StandsOn n) := by
  rw [groups_eq, takenLines, List.count_eq_countP, List.countP_map, List.countP_map]
  refine List.countP_congr ?_
  intro i hi
  simp [Item.standsOn_statements hi]

end Routine

/-- **What the check of lines reports.**  A program passes exactly if in no function two groups stand on
one line.  Otherwise the first function in which two do is reported, with the lines that two of its
groups or more stand on, in ascending order and once each. -/
theorem Program.checkLines_groups (p : Program) :
    (p.checkLines = .ok () ↔ ∀ r ∈ p.routines, r.GroupsApart) ∧
    ∀ e, p.checkLines = .error e ↔ ∃ earlier r later lines, p.routines = earlier ++ r :: later ∧
      (∀ q ∈ earlier, q.GroupsApart) ∧ ¬r.GroupsApart ∧ e = .duplicateLines r.name lines ∧
      lines.Pairwise (· < ·) ∧ ∀ n, n ∈ lines ↔ 2 ≤ r.groups.countP (StandsOn n) := by
  constructor
  · rw [checkLines_eq_ok]
    exact forall₂_congr fun r _ => Routine.nodup_takenLines_iff
  · intro e
    rw [checkLines, List.forM_eq_forM, forM_eq_error]
    simp only [checkDistinct_eq_ok, checkDistinct_eq_error, Routine.nodup_takenLines_iff]
    constructor
    · rintro ⟨earlier, r, later, hcut, hearlier, hr, rfl⟩
      refine ⟨earlier, r, later, repeated r.takenLines, hcut, hearlier, hr, rfl,
        pairwise_repeated _, ?_⟩
      intro n
      rw [mem_repeated, r.count_takenLines]
    · rintro ⟨earlier, r, later, lines, hcut, hearlier, hr, rfl, hascending, hlines⟩
      refine ⟨earlier, r, later, hcut, hearlier, hr, ?_⟩
      -- two ascending rows of the same numbers are the same
      have hsame : lines = repeated r.takenLines := by
        refine hascending.eq_of_mem_iff (pairwise_repeated _) ?_
        intro n
        rw [hlines, mem_repeated, r.count_takenLines]
      rw [hsame]

end ContractBasic
