/-
What the parser does not look at.

Offsets are carried along for messages, and comments for those who read the tree; no step of the
parser looks at either.  Here both are forgotten as far as one likes, in trees and in the states that
lead to them, and a step on what is left is what is left of the step.

* `Forgetting` — what becomes of offsets and of comments
* `ParseTree.forget`, `State.forget` — a tree and a state after it
* `State.step_forget`, `State.finish_forget` — steps and ends of runs do not see it
-/
import ContractBasic.Grammar.Parser

namespace ContractBasic

/-- What becomes of the offsets and of the comments of a text. -/
structure Forgetting where
  offset : Nat → Nat
  comment : Comment → Option Comment

namespace Forgetting

/-- Nothing stays but which tokens there are. -/
def offsets : Forgetting := ⟨fun _ => 0, fun c => some ⟨0, c.item⟩⟩

/-- Nothing stays but which tokens of the code there are. -/
def remarks : Forgetting := ⟨fun _ => 0, fun _ => none⟩

@[simp] theorem offset_offsets (n : Nat) : offsets.offset n = 0 := rfl

variable (F : Forgetting)

/-- What is left of several comments. -/
def comments (cs : List Comment) : List Comment := cs.filterMap F.comment

@[simp] theorem comments_nil : F.comments [] = [] := rfl

@[simp] theorem comments_append (as bs : List Comment) :
    F.comments (as ++ bs) = F.comments as ++ F.comments bs :=
  List.filterMap_append

/-- What is left of something at a place of a text. -/
def place {α : Type} (x : Placed α) : Placed α := ⟨F.offset x.offset, x.item⟩

/-- What is left of a token, if anything is. -/
def token? (t : Placed Token) : Option (Placed Token) :=
  match t.item with
  | .comment raw => (F.comment ⟨t.offset, raw⟩).map fun c => ⟨c.offset, .comment c.item⟩
  | _ => some (F.place t)

theorem token?_of_not_comment {t : Placed Token} (ht : t.item.isComment = false) :
    F.token? t = some (F.place t) := by
  obtain ⟨offset, item⟩ := t
  cases item with
  | comment raw => cases ht
  | _ => rfl

end Forgetting

variable (F : Forgetting)

/-! ### Trees -/

namespace ParseTree

/-- What is left of a line. -/
def Line.forget (l : Line) : Line :=
  { l with offset := F.offset l.offset, comments := F.comments l.comments }

/-- What is left of a parameter. -/
def Param.forget (p : Param) : Param := { p with comments := F.comments p.comments }

/-- What is left of a function. -/
def Routine.forget (r : Routine) : Routine where
  name := r.name
  offset := F.offset r.offset
  params := r.params.map (Param.forget F)
  returnType := r.returnType
  comments := F.comments r.comments
  lines := r.lines.map (Line.forget F)

end ParseTree

/-- What is left of a tree. -/
def ParseTree.forget (t : ParseTree) : ParseTree :=
  ⟨t.routines.map (Routine.forget F), F.comments t.trailing⟩

namespace Grammar

open ParseTree

/-! ### Places -/

/-- What is left of a heading. -/
def Heading.forget (h : Heading) : Heading :=
  ⟨h.name, F.offset h.offset, h.params.map (ParseTree.Param.forget F), F.comments h.comments⟩

namespace Place

/-- What is left of a place. -/
def forget : Place → Place
  | outside leading => outside (F.comments leading)
  | opened cs => opened (F.comments cs)
  | named h => named (h.forget F)
  | params h held => params (h.forget F) (F.comments held)
  | paramComma h held => paramComma (h.forget F) (F.comments held)
  | paramName h held n => paramName (h.forget F) (F.comments held) n
  | paramType h held n type => paramType (h.forget F) (F.comments held) n type
  | signature h => signature (h.forget F)
  | body r => body (r.forget F)
  | line r l reading => line (r.forget F) (l.forget F) reading
  | ended r leading => ended (r.forget F) (F.comments leading)

/-- What is asked for does not hang on what is forgotten. -/
@[simp] theorem expected_forget (p : Place) : (p.forget F).expected = p.expected := by
  cases p <;> rfl

@[simp] theorem expectedAtEnd_forget (p : Place) :
    (p.forget F).expectedAtEnd = p.expectedAtEnd := by
  cases p <;> rfl

end Place

theorem forget_addLine (r : ParseTree.Routine) (l : Line) :
    (addLine r l).forget F = addLine (r.forget F) (l.forget F) := by
  simp [addLine, ParseTree.Routine.forget]

namespace Place

theorem stepBody_forget (r : ParseTree.Routine) (t : Placed Token) :
    stepBody (r.forget F) (F.place t) = (stepBody r t).map (forget F) := by
  obtain ⟨offset, item⟩ := t
  cases item with
  | number n => simp [stepBody, Forgetting.place, forget, Line.forget]
  | word w =>
    by_cases hw : w = "End"
    · subst hw
      simp [stepBody, Forgetting.place, forget]
    · simp [stepBody, Forgetting.place, hw]
  | _ => rfl

/-- A step does not look at what is forgotten. -/
theorem step_forget (p : Place) (t : Placed Token) :
    (p.forget F).step (F.place t) = (p.step t).map (forget F) := by
  obtain ⟨offset, item⟩ := t
  cases p with
  | outside leading =>
    by_cases hi : item = .word "Function"
    · subst hi
      rfl
    · simp [step, forget, Forgetting.place, hi]
  | opened cs => cases item <;> simp [step, forget, Forgetting.place, Heading.forget]
  | named h => cases item <;> simp [step, forget, Forgetting.place]
  | params h held =>
    cases item <;> simp [step, forget, Forgetting.place, Heading.forget, Heading.addComments]
  | paramComma h held => cases item <;> simp [step, forget, Forgetting.place]
  | paramName h held n =>
    cases item <;> simp [step, forget, Forgetting.place, Function.comp_def]
  | paramType h held n type =>
    cases item <;>
      simp [step, forget, Forgetting.place, Heading.forget, Heading.addParam, ParseTree.Param.forget]
  | signature h =>
    cases item <;>
      simp [step, forget, Forgetting.place, Heading.routine, Heading.forget, ParseTree.Routine.forget,
        Function.comp_def]
  | body r => exact stepBody_forget F r _
  | line r l reading =>
    -- a line that is over gets its statement, which nothing is forgotten of
    have hstatement : ∀ s, { l.forget F with statement := s } = { l with statement := s }.forget F :=
      fun s => rfl
    simp only [step, forget]
    cases hs : reading.whole? with
    | none => simp [Forgetting.place, Function.comp_def, forget]
    | some s =>
      simp only [Option.bind_some, hstatement, ← forget_addLine, stepBody_forget]
      cases stepBody (addLine r { l with statement := s }) ⟨offset, item⟩ with
      | none => simp [Forgetting.place, Function.comp_def, forget]
      | some p => rfl
  | ended r leading => cases item <;> rfl

/-- A comment is read as what is left of it, and as nothing if nothing is. -/
theorem forget_comment (c : Comment) (p : Place) :
    (p.comment c).forget F = match F.comment c with
      | some d => (p.forget F).comment d
      | none => p.forget F := by
  cases hc : F.comment c <;> cases p <;>
    simp [comment, forget, Heading.addComments, Heading.forget, ParseTree.Routine.forget,
      Line.forget, Forgetting.comments, hc]

end Place

/-! ### States -/

namespace State

/-- What is left of a state. -/
def forget (s : State) : State :=
  ⟨s.routines.map (ParseTree.Routine.forget F), s.place.forget F⟩

theorem forget_start : start.forget F = start := by
  simp [forget, start, Place.forget]

/-- Away from comments and the end of a function, the place alone steps. -/
theorem step_eq_map {s : State} {t : Placed Token} (hc : t.item.isComment = false)
    (hf : ∀ r leading, s.place = .ended r leading → t.item ≠ .word "Function") :
    s.step t = (s.place.step t).map fun p => { s with place := p } := by
  unfold step
  split
  · rename_i raw hi
    rw [hi] at hc
    cases hc
  · rename_i r leading hi hplace
    exact absurd hi (hf r leading hplace)
  · rfl

/-- A step at a token that is no comment does not look at what is forgotten. -/
theorem step_forget (s : State) {t : Placed Token} (ht : t.item.isComment = false) :
    (s.forget F).step (F.place t) = (s.step t).map (forget F) := by
  obtain ⟨routines, place⟩ := s
  by_cases hend : ∃ r leading, place = .ended r leading ∧ t.item = .word "Function"
  · obtain ⟨r, leading, rfl, hitem⟩ := hend
    simp [step, Forgetting.place, hitem, forget, Place.forget]
  · -- neither state is at the end of a function, so the places alone step
    have hown : ∀ r leading, place = .ended r leading → t.item ≠ .word "Function" :=
      fun r leading hplace hitem => hend ⟨r, leading, hplace, hitem⟩
    have hleft : ∀ r leading, place.forget F = .ended r leading → t.item ≠ .word "Function" := by
      intro r leading hplace
      cases place with
      | ended r' leading' => exact hown r' leading' rfl
      | _ => cases hplace
    rw [step_eq_map (s := forget F ⟨routines, place⟩) (t := F.place t) ht hleft,
      step_eq_map (s := ⟨routines, place⟩) ht hown]
    simp [forget, Place.step_forget, Function.comp_def]

/-- A step at a comment is a step at what is left of it, and none if nothing is. -/
theorem step_forget_comment (s : State) (offset : Nat) (raw : String) :
    ((s.step ⟨offset, .comment raw⟩).map (forget F))
      = match F.token? ⟨offset, .comment raw⟩ with
        | some u => (s.forget F).step u
        | none => some (s.forget F) := by
  obtain ⟨routines, place⟩ := s
  have hplace := Place.forget_comment F ⟨offset, raw⟩ place
  cases hc : F.comment ⟨offset, raw⟩ <;> rw [hc] at hplace <;>
    simp [step, Forgetting.token?, hc, forget, hplace]

/-- A run does not see what is forgotten. -/
theorem run_forget (s : State) (ts : List (Placed Token)) :
    (s.forget F).run (ts.filterMap F.token?)
      = ((s.run ts).map (forget F)).mapError F.place := by
  induction ts generalizing s with
  | nil => rfl
  | cons t ts ih =>
    -- a comment may be gone from the row on the left, but then its step does nothing there
    cases ht : t.item.isComment with
    | true =>
      obtain ⟨offset, item⟩ := t
      cases item with
      | comment raw =>
        have hstep := step_forget_comment F s offset raw
        obtain ⟨s', hs⟩ : ∃ s', s.step ⟨offset, .comment raw⟩ = some s' := ⟨_, rfl⟩
        rw [hs, Option.map_some] at hstep
        rw [run, hs]
        change _ = ((s'.run ts).map (forget F)).mapError F.place
        rw [← ih s']
        cases hu : F.token? ⟨offset, .comment raw⟩ with
        | none =>
          rw [hu] at hstep
          rw [List.filterMap_cons_none hu, Option.some.inj hstep]
        | some u =>
          simp only [hu] at hstep
          rw [List.filterMap_cons_some hu, run, ← hstep]
      | _ => cases ht
    | false =>
      rw [List.filterMap_cons_some (F.token?_of_not_comment ht), run, run, step_forget F s ht]
      cases s.step t with
      | none =>
        simp only [Option.map_none, forget, Place.expected_forget]
        rfl
      | some s' => exact ih s'

theorem finish_forget (s : State) (offset : Nat) :
    (s.forget F).finish (F.offset offset)
      = ((s.finish offset).map (ParseTree.forget F)).mapError F.place := by
  obtain ⟨routines, place⟩ := s
  cases place <;> rfl

end State

end Grammar

open Grammar

/-- What is found in a text, but for what is forgotten, is found in what is left of its tokens. -/
theorem parse_forget {source : List Char} (h : (lex source).fault = none) :
    ((parse source).map (ParseTree.forget F)).mapError F.place = (do
      let final ← State.start.run ((lex source).tokens.filterMap F.token?)
      final.finish (F.offset (Text.byteSize source))) := by
  have hrun := State.run_forget F State.start (lex source).tokens
  rw [State.forget_start] at hrun
  rw [hrun, parse]
  cases hlex : lex source with
  | mk tokens fault =>
    rw [hlex] at h
    cases h
    cases hstate : State.start.run tokens with
    | error fault =>
      simp only [hstate]
      rfl
    | ok s =>
      -- the run is over, and only the end of the text can still be refused
      simp only [hstate]
      exact (State.finish_forget F s _).symm

end ContractBasic
