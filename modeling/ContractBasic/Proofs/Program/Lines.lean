/-
The checks of lines.

* `checkDistinct_eq_ok` — the check passes exactly for numbers without repetition
* `ParseTree.checkLines_eq_ok`, `Program.checkLines_eq_ok` — the checks of whole texts and programs
* `Routine.unsplit_ofTree` — a text has no comment between two declarations of one line
-/
import ContractBasic.Proofs.Grammar.Uniqueness
import ContractBasic.Proofs.Program.Items
import ContractBasic.Proofs.Program.Nodes
import Mathlib.Data.List.Nodup

namespace ContractBasic

/-! ### Numbers that occur twice -/

theorem insertAscending_ne_nil (n : UInt64) (ns : List UInt64) : insertAscending n ns ≠ [] := by
  cases ns with
  | nil => simp [insertAscending]
  | cons m ms =>
    unfold insertAscending
    split
    · simp
    · split <;> simp

/-- No number is repeated exactly if none occurs twice. -/
theorem repeated_eq_nil_iff {ns : List UInt64} : repeated ns = [] ↔ ns.Nodup := by
  -- insertion leaves a number where there was one
  have hfold : ∀ ms : List UInt64, ms.foldr insertAscending [] = [] ↔ ms = [] := by
    intro ms
    cases ms with
    | nil => simp
    | cons m ms => simp [insertAscending_ne_nil]
  rw [repeated, hfold, List.filter_eq_nil_iff, List.nodup_iff_count_le_one]
  constructor
  · intro h n
    by_cases hn : n ∈ ns
    · simpa using h n hn
    · simp [List.count_eq_zero_of_not_mem hn]
  · intro h n _
    simpa using h n

/-- The check that numbers are distinct passes exactly if they are. -/
theorem checkDistinct_eq_ok {routine : String} {ns : List UInt64} :
    checkDistinct routine ns = .ok () ↔ ns.Nodup := by
  rw [← repeated_eq_nil_iff, checkDistinct]
  cases repeated ns <;> simp

/-- The check fails exactly if they are not, and says which occur more than once. -/
theorem checkDistinct_eq_error {routine : String} {ns : List UInt64} {e : Error} :
    checkDistinct routine ns = .error e ↔
      ¬ns.Nodup ∧ e = .duplicateLines routine (repeated ns) := by
  rw [← repeated_eq_nil_iff, checkDistinct]
  cases repeated ns <;> simp [eq_comm]

theorem ParseTree.checkLines_eq_ok {t : ParseTree} :
    t.checkLines = .ok () ↔ ∀ r ∈ t.routines, r.takenLines.Nodup := by
  rw [checkLines, List.forM_eq_forM, forM_eq_ok]
  exact forall₂_congr fun r _ => checkDistinct_eq_ok

theorem Program.checkLines_eq_ok {p : Program} :
    p.checkLines = .ok () ↔ ∀ r ∈ p.routines, r.takenLines.Nodup := by
  rw [checkLines, List.forM_eq_forM, forM_eq_ok]
  exact forall₂_congr fun r _ => checkDistinct_eq_ok

/-- The check of lines does not look at what is forgotten of a tree. -/
theorem ParseTree.checkLines_forget (F : Forgetting) (t : ParseTree) :
    (t.forget F).checkLines = t.checkLines := by
  have htaken : ∀ r : Routine, (r.forget F).takenLines = r.takenLines := by
    intro r
    simp [Routine.takenLines, Routine.forget, List.filter_map, Function.comp_def, Line.forget]
  rw [checkLines, checkLines, forget]
  refine forM_map_congr fun r _ => ?_
  rw [htaken]
  rfl

/-! ### Declarations of a text -/

/-- What a line of a text holds: what its statement does, an empty line, or its comments. -/
theorem Statement.ofLine_cases {keep : Bool} {l : ParseTree.Line} {s : Statement}
    (hs : s ∈ ofLine keep l) : s.line = l.number ∧
      ((∃ t, l.statement = some t ∧ s.kind ∈ StatementKind.ofTree t) ∨
        (keep = true ∧ l.statement = none ∧ s.kind = .noOp) ∨
        ∃ text ∈ cleanComments l.comments, s.kind = .comment text) := by
  obtain ⟨k, hk, rfl⟩ := List.mem_map.mp hs
  refine ⟨rfl, ?_⟩
  rcases List.mem_append.mp hk with hk | hk
  · cases hstatement : l.statement with
    | some t =>
      rw [hstatement] at hk
      exact .inl ⟨t, rfl, hk⟩
    | none =>
      rw [hstatement] at hk
      dsimp only at hk
      split at hk
      · rename_i hempty
        exact .inr (.inl ⟨hempty.1, rfl, List.mem_singleton.mp hk⟩)
      · cases hk
  · obtain ⟨text, htext, rfl⟩ := List.mem_map.mp hk
    exact .inr (.inr ⟨text, htext, rfl⟩)

/-- On a line of a text, what takes up the line stands before what does not. -/
theorem Statement.pairwise_ofLine (keep : Bool) (l : ParseTree.Line) :
    (Statement.ofLine keep l).Pairwise fun a b =>
      b.kind.isExecutable = true → a.kind.isExecutable = true := by
  have hcomment : ∀ k ∈ (cleanComments l.comments).map StatementKind.comment,
      k.isExecutable = false := by
    intro k hk
    obtain ⟨text, -, rfl⟩ := List.mem_map.mp hk
    rfl
  rw [Statement.ofLine, List.pairwise_map, List.pairwise_append]
  -- the statement is first and takes up the line as a whole; the comments behind it do not
  refine ⟨?_, ?_, ?_⟩
  · cases l.statement with
    | none =>
      dsimp only
      split
      · exact List.pairwise_singleton _ _
      · exact .nil
    | some s =>
      refine List.pairwise_of_forall_mem_list ?_
      exact fun a ha _ _ _ => ParseTree.Stmt.isExecutable_ofTree a ha
  · refine List.pairwise_of_forall_mem_list fun _ _ b hb hexec => ?_
    rw [hcomment b hb] at hexec
    cases hexec
  · intro a _ b hb hexec
    rw [hcomment b hb] at hexec
    cases hexec

/-- A declaration on a line of a text is the statement of the line. -/
theorem Statement.isSome_of_mem_ofLine {keep : Bool} {l : ParseTree.Line} {s : Statement}
    (hs : s ∈ ofLine keep l) (hdim : s.kind.isDim = true) :
    s.line = l.number ∧ l.statement.isSome = true := by
  obtain ⟨hline, ⟨t, ht, -⟩ | ⟨-, -, hkind⟩ | ⟨text, -, hkind⟩⟩ := ofLine_cases hs
  · exact ⟨hline, by rw [ht, Option.isSome_some]⟩
  · rw [hkind] at hdim
    cases hdim
  · rw [hkind] at hdim
    cases hdim

/-- Nothing stands between two declarations on a line of a text. -/
theorem Item.unsplit_ofLine (keep : Bool) (l : ParseTree.Line) :
    Unsplit (Statement.ofLine keep l) := by
  intro a c b hsub ha hb hc
  have hpairwise := (Statement.pairwise_ofLine keep l).sublist hsub
  have hcb := (List.pairwise_cons.mp (List.pairwise_cons.mp hpairwise).2).1 b List.mem_cons_self
  have hexec : b.kind.isExecutable = true := by
    cases hk : b.kind <;> rw [hk] at hb <;> first | rfl | cases hb
  rw [hcb hexec] at hc
  cases hc

/-- Lines of a text that are distinct have no comment between two declarations of one line. -/
theorem Item.unsplit_ofLines (keep : Bool) {ls : List ParseTree.Line}
    (h : (ParseTree.Line.taken ls).Nodup) : Unsplit (ls.flatMap (Statement.ofLine keep)) := by
  induction ls with
  | nil =>
    intro a c b hsub
    cases hsub
  | cons l ls ih =>
    have htail : (ParseTree.Line.taken ls).Nodup := by
      rw [ParseTree.Line.taken, List.filter_cons] at h
      split at h
      · exact (List.nodup_cons.mp h).2
      · exact h
    rw [List.flatMap_cons]
    refine (unsplit_ofLine keep l).append (ih htail) ?_
    -- a line that declares something is taken
    intro a hal b hbl ha hb hline
    obtain ⟨hal, hsome⟩ := Statement.isSome_of_mem_ofLine hal ha
    obtain ⟨m, hm, hbm⟩ := List.mem_flatMap.mp hbl
    obtain ⟨hbl, hsome'⟩ := Statement.isSome_of_mem_ofLine hbm hb
    rw [ParseTree.Line.taken, List.filter_cons, if_pos hsome, List.map_cons, List.nodup_cons] at h
    refine h.1 (List.mem_map.mpr ⟨m, List.mem_filter.mpr ⟨hm, hsome'⟩, ?_⟩)
    rw [← hbl, ← hline, hal]

/-- The functions of a text with distinct lines have no comment between two declarations of one
line. -/
theorem Routine.unsplit_ofTree (keep : Bool) {r : ParseTree.Routine} (h : r.takenLines.Nodup) :
    Item.Unsplit (ofTree keep r).statements :=
  Item.unsplit_ofLines keep h

end ContractBasic
