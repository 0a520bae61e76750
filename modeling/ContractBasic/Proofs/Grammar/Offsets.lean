/-
The parser and the places of tokens.

The tree of a text depends on its tokens alone up to offsets.  Here a run over placed tokens is
compared with one over bare tokens, all of them placed at the start.

* `ParseTree.unplaced` — a tree with every offset forgotten
* `State.read` — the state after a row of bare tokens
* `parse_unplaced`, `exists_parse_of_read` — the tree of a text without its offsets is read from its bare
  tokens
-/
import ContractBasic.Proofs.Grammar.Forgetting

namespace ContractBasic

/-- Something as if it were found at the start of a text. -/
def Placed.unplaced {α : Type} (p : Placed α) : Placed α := ⟨0, p.item⟩

namespace ParseTree

/-- A line without offsets. -/
def Line.unplaced (l : Line) : Line :=
  { l with offset := 0, comments := l.comments.map Placed.unplaced }

/-- A parameter without offsets. -/
def Param.unplaced (p : Param) : Param :=
  { p with comments := p.comments.map Placed.unplaced }

/-- A function without offsets. -/
def Routine.unplaced (r : Routine) : Routine where
  name := r.name
  offset := 0
  params := r.params.map Param.unplaced
  returnType := r.returnType
  comments := r.comments.map Placed.unplaced
  lines := r.lines.map Line.unplaced

end ParseTree

/-- A tree without offsets. -/
def ParseTree.unplaced (t : ParseTree) : ParseTree :=
  ⟨t.routines.map Routine.unplaced, t.trailing.map Placed.unplaced⟩

/-! ### Offsets are forgotten -/

theorem Forgetting.comments_offsets (cs : List Comment) :
    offsets.comments cs = cs.map Placed.unplaced := by
  rw [comments, ← List.filterMap_eq_map]
  rfl

theorem ParseTree.forget_offsets : ParseTree.forget .offsets = unplaced := by
  have hline : Line.forget .offsets = Line.unplaced := by
    funext l
    simp [Line.forget, Line.unplaced, Forgetting.comments_offsets]
  have hparam : Param.forget .offsets = Param.unplaced := by
    funext p
    simp [Param.forget, Param.unplaced, Forgetting.comments_offsets]
  have hroutine : Routine.forget .offsets = Routine.unplaced := by
    funext r
    simp [Routine.forget, Routine.unplaced, hline, hparam, Forgetting.comments_offsets]
  funext t
  simp [forget, unplaced, hroutine, Forgetting.comments_offsets]

/-- Tokens without their offsets are placed at the start. -/
theorem Forgetting.filterMap_offsets (ts : List (Placed Token)) :
    ts.filterMap offsets.token? = (ts.map Placed.item).map fun t => ⟨0, t⟩ := by
  have htoken : offsets.token? = some ∘ fun t => ⟨0, t.item⟩ := by
    funext ⟨offset, item⟩
    cases item <;> rfl
  rw [htoken, List.filterMap_eq_map, List.map_map]
  rfl

namespace Grammar

namespace State

/-- The state after a row of bare tokens. -/
def read (s : State) (ts : List Token) : Option State := ts.foldlM (fun s t => s.step ⟨0, t⟩) s

/-- A run over tokens at the start of a text reads them bare. -/
theorem toOption_run (s : State) (ts : List Token) :
    (s.run (ts.map fun t => ⟨0, t⟩)).toOption = s.read ts := by
  induction ts generalizing s with
  | nil => rfl
  | cons t ts ih =>
    rw [List.map_cons, run, read, List.foldlM_cons]
    cases s.step ⟨0, t⟩ with
    | none => rfl
    | some s' => exact ih s'

end State

end Grammar

open Grammar

/-- The tree of a text without its offsets is read from the bare tokens of the text. -/
theorem parse_unplaced {source : List Char} (h : (lex source).fault = none) :
    (parse source).toOption.map ParseTree.unplaced
      = (State.start.read ((lex source).tokens.map Placed.item)).bind
          fun s => (s.finish 0).toOption := by
  have hparse := congrArg Except.toOption (parse_forget .offsets h)
  rw [ParseTree.forget_offsets, Forgetting.filterMap_offsets] at hparse
  rw [← State.toOption_run]
  -- what fails is `none` on both sides
  cases hp : parse source with
  | error fault =>
    rw [hp] at hparse
    cases hrun : State.start.run (((lex source).tokens.map Placed.item).map fun t => ⟨0, t⟩) <;>
      rw [hrun] at hparse <;> exact hparse
  | ok t =>
    rw [hp] at hparse
    cases hrun : State.start.run (((lex source).tokens.map Placed.item).map fun t => ⟨0, t⟩) <;>
      rw [hrun] at hparse <;> exact hparse

/-- A text whose bare tokens lead to where a text may end has a tree. -/
theorem exists_parse_of_read {source : List Char} (h : (lex source).fault = none) {s : State}
    {t : ParseTree} (hread : State.start.read ((lex source).tokens.map Placed.item) = some s)
    (hfinish : s.finish 0 = .ok t) : ∃ t', parse source = .ok t' ∧ t'.unplaced = t := by
  have hparse := parse_unplaced h
  rw [hread, Option.bind_some, hfinish] at hparse
  cases hp : parse source with
  | error fault =>
    rw [hp] at hparse
    cases hparse
  | ok t' =>
    rw [hp] at hparse
    exact ⟨t', rfl, Option.some.inj hparse⟩

end ContractBasic
