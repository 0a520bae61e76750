/-
Items and the statements they are made of.

* `Item.statements` — the statements of an item
* `Item.flatMap_statements` — the statements of the items of a function are its statements
* `Item.Unsplit`, `Item.Unfilled` — statements in which no declaration is split by a comment, and no
  empty line is filled by one
* `Item.filter_ofStatements` — items without comments, where no comment splits a declaration
* `Item.unsplit_of_nodup` — items that take up different lines split no declaration
* `Item.ofStatements_map`, `Routine.takenLines_map` — the items and the lines of statements that are
  replaced one by one
-/
import ContractBasic.Program.Lines
import Mathlib.Data.List.Chain

namespace ContractBasic

/-- Whether a statement declares a variable. -/
def StatementKind.isDim : StatementKind → Bool
  | dim _ _ => true
  | _ => false

/-- Whether a statement is a comment. -/
def StatementKind.isComment : StatementKind → Bool
  | comment _ => true
  | _ => false

namespace Item

/-- The statements of an item. -/
def statements : Item → List Statement
  | dims line names type => names.map fun n => ⟨line, .dim n type⟩
  | single s => [s]

/-- Whether an item is a comment. -/
def isComment : Item → Bool
  | single ⟨_, .comment _⟩ => true
  | _ => false

theorem eq_comment_of_isComment {i : Item} (h : i.isComment = true) :
    ∃ n text, i = single ⟨n, .comment text⟩ := by
  cases i with
  | dims n names type => cases h
  | single s =>
    obtain ⟨n, kind⟩ := s
    cases kind with
    | comment text => exact ⟨n, text, rfl⟩
    | _ => cases h

theorem flatMap_statements_declare (line : UInt64) (name : String) (type : ValueType)
    (later : List Item) : (declare line name type later).flatMap statements
      = ⟨line, .dim name type⟩ :: later.flatMap statements := by
  unfold declare
  split
  · split
    · rename_i heq
      simp [statements, heq]
    · simp [statements]
  · simp [statements]

theorem ofStatements_dim (line : UInt64) (n : String) (type : ValueType) (ss : List Statement) :
    ofStatements (⟨line, .dim n type⟩ :: ss) = declare line n type (ofStatements ss) := rfl

theorem ofStatements_cons {s : Statement} (h : ∀ n type, s.kind ≠ .dim n type)
    (ss : List Statement) : ofStatements (s :: ss) = single s :: ofStatements ss := by
  obtain ⟨line, kind⟩ := s
  cases kind with
  | dim n type => exact absurd rfl (h n type)
  | _ => rfl

/-- Items keep the statements they are made of, in order. -/
theorem flatMap_statements (ss : List Statement) : (ofStatements ss).flatMap statements = ss := by
  induction ss with
  | nil => rfl
  | cons s ss ih =>
    obtain ⟨line, kind⟩ := s
    cases kind with
    | dim n type => rw [ofStatements_dim, flatMap_statements_declare, ih]
    | _ => rw [ofStatements_cons (by simp), List.flatMap_cons, ih]; rfl

theorem mem_of_mem_statements {ss : List Statement} {i : Item} (hi : i ∈ ofStatements ss)
    {s : Statement} (hs : s ∈ i.statements) : s ∈ ss := by
  rw [← flatMap_statements ss]
  exact List.mem_flatMap.mpr ⟨i, hi, hs⟩

/-- Every item of statements is made of at least one. -/
theorem statements_ne_nil {ss : List Statement} : ∀ i ∈ ofStatements ss, i.statements ≠ [] := by
  induction ss with
  | nil => nofun
  | cons s ss ih =>
    obtain ⟨line, kind⟩ := s
    cases kind with
    | dim n type =>
      rw [ofStatements_dim]
      -- a declaration joins the names of the first item or makes an item of its own
      unfold declare
      split
      · rename_i m names t rest heq
        rw [heq] at ih
        split
        · intro i hi
          rcases List.mem_cons.mp hi with rfl | hi
          · simp [statements]
          · exact ih i (List.mem_cons_of_mem _ hi)
        · intro i hi
          rcases List.mem_cons.mp hi with rfl | hi
          · simp [statements]
          · exact ih i (heq ▸ hi)
      · intro i hi
        rcases List.mem_cons.mp hi with rfl | hi
        · simp [statements]
        · exact ih i hi
    | _ =>
      rw [ofStatements_cons (by simp)]
      intro i hi
      rcases List.mem_cons.mp hi with rfl | hi
      · simp [statements]
      · exact ih i hi

/-! ### Items that take up their line -/

/-- Whether an item takes up its line. -/
def isExecutable : Item → Bool
  | dims _ _ _ => true
  | single s => s.kind.isExecutable

/-- Whether no comment and no empty line stands between two declarations of one line. -/
def Unsplit (ss : List Statement) : Prop :=
  ∀ a c b : Statement, [a, c, b].Sublist ss → a.kind.isDim = true → b.kind.isDim = true →
    c.kind.isExecutable = false → a.line ≠ b.line

theorem Unsplit.tail {s : Statement} {ss : List Statement} (h : Unsplit (s :: ss)) : Unsplit ss :=
  fun a c b hsub => h a c b (hsub.cons s)

/-- Rows of statements without split declarations can be joined if they declare nothing on the same
lines. -/
theorem Unsplit.append {ss ts : List Statement} (hss : Unsplit ss) (hts : Unsplit ts)
    (hapart : ∀ a ∈ ss, ∀ b ∈ ts, a.kind.isDim = true → b.kind.isDim = true → a.line ≠ b.line) :
    Unsplit (ss ++ ts) := by
  intro a c b hsub ha hb hc
  rw [List.sublist_append_iff] at hsub
  obtain ⟨us, vs, hcut, hus, hvs⟩ := hsub
  -- where the three are cut says which row tells the outer two apart
  rcases us with _ | ⟨x, _ | ⟨y, _ | ⟨z, us⟩⟩⟩
  · rw [List.nil_append] at hcut
    exact hts a c b (hcut ▸ hvs) ha hb hc
  · simp only [List.cons_append, List.nil_append, List.cons.injEq] at hcut
    obtain ⟨rfl, rfl⟩ := hcut
    exact hapart a (hus.subset (by simp)) b (hvs.subset (by simp)) ha hb
  · simp only [List.cons_append, List.nil_append, List.cons.injEq] at hcut
    obtain ⟨rfl, rfl, rfl⟩ := hcut
    exact hapart a (hus.subset (by simp)) b (hvs.subset (by simp)) ha hb
  · simp only [List.cons_append, List.cons.injEq] at hcut
    obtain ⟨rfl, rfl, rfl, hcut⟩ := hcut
    obtain ⟨rfl, -⟩ := List.append_eq_nil_iff.mp hcut.symm
    exact hss a c b hus ha hb hc

/-- What stands behind something that takes up no line is among the statements from the first such
one on. -/
theorem mem_dropWhile_isExecutable {c b : Statement} {ss : List Statement} (h : [c, b].Sublist ss)
    (hc : c.kind.isExecutable = false) : b ∈ ss.dropWhile fun s => s.kind.isExecutable := by
  induction ss with
  | nil => cases h
  | cons s ss ih =>
    -- from the first statement on that takes up no line nothing is dropped
    cases hs : s.kind.isExecutable with
    | false =>
      rw [List.dropWhile_cons, hs]
      exact h.subset (by simp)
    | true =>
      rw [List.dropWhile_cons, hs, if_pos rfl]
      cases h with
      | cons _ h => exact ih h
      | cons_cons _ h => cases hc.symm.trans hs

/-- A declaration is not split from a later one exactly if none on its line stands behind the first
comment or empty line. -/
theorem unsplit_cons {s : Statement} {ss : List Statement} :
    Unsplit (s :: ss) ↔ (s.kind.isDim = true → ∀ b ∈ ss.dropWhile fun c => c.kind.isExecutable,
      b.kind.isDim = true → s.line ≠ b.line) ∧ Unsplit ss := by
  constructor
  · -- the first that takes up no line stands between the declaration and what is behind it
    refine fun h => ⟨fun hs b hb hdim => ?_, h.tail⟩
    have hfirst := List.head?_dropWhile_not (fun c : Statement => c.kind.isExecutable) ss
    have hsuffix := List.dropWhile_suffix (l := ss) fun c : Statement => c.kind.isExecutable
    cases hrest : ss.dropWhile fun c => c.kind.isExecutable with
    | nil =>
      rw [hrest] at hb
      cases hb
    | cons c rest =>
      rw [hrest] at hb hfirst hsuffix
      have hc : c.kind.isExecutable = false := by simpa using hfirst
      rcases List.mem_cons.mp hb with rfl | hb
      · cases hk : b.kind <;> rw [hk] at hc hdim
        case dim => cases hc
        all_goals cases hdim
      · refine h s c b (.cons_cons s ?_) hs hdim hc
        exact ((List.singleton_sublist.mpr hb).cons_cons c).trans hsuffix.sublist
  · rintro ⟨hs, hss⟩ a c b hsub ha hb hc
    cases hsub with
    | cons _ hsub => exact hss a c b hsub ha hb hc
    | cons_cons _ hsub => exact hs ha b (mem_dropWhile_isExecutable hsub hc) hb

/-- Whether a declaration is split can be decided from the front. -/
def decideUnsplit : (ss : List Statement) → Decidable (Unsplit ss)
  | [] => isTrue fun _ _ _ hsub => absurd (List.sublist_nil.mp hsub) (List.cons_ne_nil _ _)
  | _ :: ss =>
    have := decideUnsplit ss
    decidable_of_iff _ unsplit_cons.symm

instance : DecidablePred Unsplit := decideUnsplit

/-- Whether no comment fills an empty line: none stands right behind one and on it. -/
def Unfilled (ss : List Statement) : Prop :=
  ss.IsChain fun a b => a.kind = .noOp → b.kind.isComment = true → a.line ≠ b.line

instance : DecidablePred Unfilled := fun ss =>
  inferInstanceAs (Decidable (ss.IsChain fun a b =>
    a.kind = .noOp → b.kind.isComment = true → a.line ≠ b.line))

/-- The first item is made of the first statement. -/
theorem ofStatements_eq_single {ss : List Statement} {s : Statement} {rest : List Item}
    (h : ofStatements ss = single s :: rest) : ∃ later, ss = s :: later :=
  ⟨rest.flatMap statements, by rw [← flatMap_statements ss, h]; rfl⟩

/-- A group of declarations is made of declarations of its line. -/
theorem exists_dim_of_ofStatements {ss : List Statement} {line : UInt64} {names : List String}
    {type : ValueType} {rest : List Item} (h : ofStatements ss = dims line names type :: rest) :
    ∃ b ∈ ss, b.line = line ∧ b.kind.isDim = true := by
  have hmem : dims line names type ∈ ofStatements ss := h ▸ List.mem_cons_self
  obtain ⟨b, hb⟩ := List.exists_mem_of_ne_nil _ (statements_ne_nil _ hmem)
  refine ⟨b, mem_of_mem_statements hmem hb, ?_⟩
  obtain ⟨name, -, rfl⟩ := List.mem_map.mp hb
  exact ⟨rfl, rfl⟩

/-- A declaration joins no item if none of its line is declared. -/
theorem declare_of_ne {line : UInt64} {n : String} {type : ValueType} {ss : List Statement}
    (h : ∀ b ∈ ss, b.kind.isDim = true → line ≠ b.line) :
    declare line n type (ofStatements ss) = dims line [n] type :: ofStatements ss := by
  cases hitems : ofStatements ss with
  | nil => rfl
  | cons i rest =>
    cases i with
    | single s => rfl
    | dims m names t =>
      obtain ⟨b, hb, rfl, hdim⟩ := exists_dim_of_ofStatements hitems
      simp [declare, Ne.symm (h b hb hdim)]

/-- A declaration joins the same items whether the others are dropped before or after. -/
theorem filter_declare {line : UInt64} {n : String} {type : ValueType} {ss : List Statement}
    (h : Unsplit (⟨line, .dim n type⟩ :: ss))
    (hss : (ofStatements ss).filter isExecutable
      = ofStatements (ss.filter fun s => s.kind.isExecutable)) :
    (declare line n type (ofStatements ss)).filter isExecutable
      = declare line n type (ofStatements (ss.filter fun s => s.kind.isExecutable)) := by
  cases hitems : ofStatements ss with
  | nil =>
    rw [← hss, hitems]
    rfl
  | cons i rest =>
    rw [hitems] at hss
    cases i with
    | dims m names t =>
      rw [← hss, List.filter_cons_of_pos rfl]
      simp only [declare]
      split <;> rfl
    | single s =>
      have hdeclare : ∀ items, declare line n type (.single s :: items)
          = .dims line [n] type :: .single s :: items := fun _ => rfl
      cases hs : s.kind.isExecutable with
      | true =>
        have hsingle : isExecutable (.single s) = true := hs
        rw [List.filter_cons_of_pos hsingle] at hss
        rw [← hss, hdeclare, hdeclare, List.filter_cons_of_pos rfl,
          List.filter_cons_of_pos hsingle]
      | false =>
        -- nothing that the declaration could join stands behind what is dropped
        obtain ⟨later, rfl⟩ := ofStatements_eq_single hitems
        have hlater : ∀ b ∈ s :: later, b.kind.isDim = true → line ≠ b.line := by
          have hsplit := (unsplit_cons.mp h).1 rfl
          rwa [List.dropWhile_cons, hs] at hsplit
        rw [hdeclare, List.filter_cons_of_pos rfl, hss,
          declare_of_ne fun b hb => hlater b (List.mem_filter.mp hb).1]

theorem filter_ofStatements {ss : List Statement} (h : Unsplit ss) :
    (ofStatements ss).filter isExecutable
      = ofStatements (ss.filter fun s => s.kind.isExecutable) := by
  induction ss with
  | nil => rfl
  | cons s ss ih =>
    have hss := ih h.tail
    obtain ⟨line, kind⟩ := s
    cases kind with
    | dim n type =>
      -- what a declaration joins once comments and empty lines are gone, it joined before
      rw [ofStatements_dim, filter_declare h hss, List.filter_cons_of_pos rfl, ofStatements_dim]
    | noOp | comment text =>
      rw [ofStatements_cons (by simp),
        List.filter_cons_of_neg (by simp [isExecutable, StatementKind.isExecutable]), hss,
        List.filter_cons_of_neg (by simp [StatementKind.isExecutable])]
    | _ =>
      rw [ofStatements_cons (by simp), List.filter_cons_of_pos rfl, hss, List.filter_cons_of_pos rfl,
        ofStatements_cons (by simp)]

/-- What declares in an item stands on its line, and the item takes up the line. -/
theorem line_of_isDim {i : Item} {s : Statement} (hs : s ∈ i.statements)
    (hdim : s.kind.isDim = true) : i.isExecutable = true ∧ s.line = i.line := by
  cases i with
  | dims n names type =>
    obtain ⟨name, -, rfl⟩ := List.mem_map.mp hs
    exact ⟨rfl, rfl⟩
  | single s' =>
    obtain rfl := List.mem_singleton.mp hs
    cases hk : s.kind <;> rw [hk] at hdim
    case dim => simp [isExecutable, hk, StatementKind.isExecutable, line]
    all_goals cases hdim

theorem unsplit_statements (i : Item) : Unsplit i.statements := by
  intro a c b hsub _ _ hc
  cases i with
  | dims n names type =>
    obtain ⟨name, -, rfl⟩ := List.mem_map.mp (hsub.subset (by simp : c ∈ [a, c, b]))
    cases hc
  | single s => exact absurd hsub.length_le (by simp [statements])

/-- Items that take up different lines have no comment and no empty line between two declarations of
one line. -/
theorem unsplit_of_nodup {items : List Item}
    (h : ((items.filter isExecutable).map line).Nodup) : Unsplit (items.flatMap statements) := by
  induction items with
  | nil =>
    intro a c b hsub
    cases hsub
  | cons i rest ih =>
    have htail : ((rest.filter isExecutable).map line).Nodup := by
      rw [List.filter_cons] at h
      split at h
      · exact (List.nodup_cons.mp h).2
      · exact h
    rw [List.flatMap_cons]
    -- nothing stands between two declarations of one item, so two items would share the line
    refine (unsplit_statements i).append (ih htail) ?_
    intro a ha b hb hadim hbdim hline
    obtain ⟨hexec, hal⟩ := line_of_isDim ha hadim
    obtain ⟨j, hj, hbj⟩ := List.mem_flatMap.mp hb
    obtain ⟨hexec', hbl⟩ := line_of_isDim hbj hbdim
    rw [List.filter_cons, if_pos hexec, List.map_cons, List.nodup_cons] at h
    refine h.1 (List.mem_map.mpr ⟨j, List.mem_filter.mpr ⟨hj, hexec'⟩, ?_⟩)
    rw [← hbl, ← hline, hal]

/-! ### Items of other statements -/

/-- An item with other names in its declarations and with its statement replaced. -/
def map (name : String → String) (f : Statement → Statement) : Item → Item
  | dims line names type => dims line (names.map name) type
  | single s => single (f s)

/-- A declaration joins items by its line and its type, whatever it is called. -/
theorem declare_map (name : String → String) (f : Statement → Statement) (line : UInt64)
    (n : String) (type : ValueType) (later : List Item) :
    declare line (name n) type (later.map (map name f))
      = (declare line n type later).map (map name f) := by
  rcases later with _ | ⟨⟨m, names, t⟩ | s, rest⟩
  · rfl
  · by_cases h : m = line ∧ t = type
    · simp [declare, map, h]
    · simp [declare, map, h]
  · rfl

/-- Statements that are replaced, with declarations renamed at most, form the items replaced. -/
theorem ofStatements_map {name : String → String} {f : Statement → Statement}
    (hdim : ∀ line n type, f ⟨line, .dim n type⟩ = ⟨line, .dim (name n) type⟩)
    (hother : ∀ s, s.kind.isDim = false → (f s).kind.isDim = false) (ss : List Statement) :
    ofStatements (ss.map f) = (ofStatements ss).map (map name f) := by
  -- only declarations join items, and no other statement becomes one
  have hcons : ∀ s : Statement, s.kind.isDim = false → ∀ ss : List Statement,
      ofStatements (s :: ss) = single s :: ofStatements ss := by
    intro s hs ss
    refine ofStatements_cons (fun n type hkind => ?_) ss
    rw [hkind] at hs
    cases hs
  induction ss with
  | nil => rfl
  | cons s ss ih =>
    cases hs : s.kind.isDim with
    | false => rw [List.map_cons, hcons _ (hother s hs), ih, hcons s hs, List.map_cons, map]
    | true =>
      obtain ⟨line, kind⟩ := s
      cases kind <;> cases hs
      rw [List.map_cons, hdim, ofStatements_dim, ofStatements_dim, ih, declare_map]

@[simp] theorem line_map {name : String → String} {f : Statement → Statement}
    (hline : ∀ s, (f s).line = s.line) (i : Item) : (i.map name f).line = i.line := by
  cases i with
  | dims n names type => rfl
  | single s => exact hline s

end Item

/-- A function whose statements are replaced, each by one that takes up its line if it does, takes up
the same lines. -/
theorem Routine.takenLines_map {r r' : Routine} {name : String → String} {f : Statement → Statement}
    (hstatements : r'.statements = r.statements.map f)
    (hdim : ∀ line n type, f ⟨line, .dim n type⟩ = ⟨line, .dim (name n) type⟩)
    (hother : ∀ s, s.kind.isDim = false → (f s).kind.isDim = false)
    (hexec : ∀ s, (f s).kind.isExecutable = s.kind.isExecutable) (hline : ∀ s, (f s).line = s.line) :
    r'.takenLines = r.takenLines := by
  have hfilter : r'.statements.filter (fun s => s.kind.isExecutable)
      = (r.statements.filter fun s => s.kind.isExecutable).map f := by
    rw [hstatements, List.filter_map]
    congr 1
    exact List.filter_congr fun s _ => hexec s
  rw [takenLines, takenLines, hfilter, Item.ofStatements_map hdim hother, List.map_map]
  exact List.map_congr_left fun i _ => i.line_map hline

end ContractBasic
