/-
Comments on their way through the parser.

Wherever a comment stands in a text, the tree of the text holds it once.

* `ParseTree.remarks` — the comments anywhere in a tree
* `Place.remarks_step` — a token that is no comment leaves the comments read so far
* `remarks_of_parse` — the comments of a tree are the comments of its text
-/
import ContractBasic.Proofs.Grammar.Soundness

namespace ContractBasic

/-- The comment that a token is. -/
def Placed.remark? (t : Placed Token) : Option Comment :=
  match t.item with
  | .comment raw => some ⟨t.offset, raw⟩
  | _ => none

theorem Placed.remark?_eq_none {t : Placed Token} (h : t.item.isComment = false) :
    t.remark? = none := by
  obtain ⟨offset, item⟩ := t
  cases item with
  | comment raw => cases h
  | _ => rfl

namespace ParseTree

/-- The comments anywhere in a function. -/
def Routine.remarks (r : Routine) : List Comment :=
  r.comments ++ r.params.flatMap Param.comments ++ r.lines.flatMap Line.comments

end ParseTree

/-- The comments anywhere in a tree. -/
def ParseTree.remarks (t : ParseTree) : List Comment :=
  t.routines.flatMap Routine.remarks ++ t.trailing

namespace Grammar

open ParseTree

/-- The comments read so far of a heading. -/
def Heading.remarks (h : Heading) : List Comment :=
  h.comments ++ h.params.flatMap Param.comments

namespace Place

/-- The comments read so far of the current function. -/
def remarks : Place → List Comment
  | outside cs | opened cs => cs
  | named h | signature h => h.remarks
  | params h held | paramComma h held | paramName h held _ | paramType h held _ _ =>
    h.remarks ++ held
  | body r => r.remarks
  | line r l _ => r.remarks ++ l.comments
  | ended r leading => r.remarks ++ leading

theorem remarks_addLine (r : ParseTree.Routine) (l : Line) :
    (addLine r l).remarks = r.remarks ++ l.comments := by
  simp [addLine, ParseTree.Routine.remarks]

theorem remarks_stepBody {r : ParseTree.Routine} {t : Placed Token} {p : Place}
    (h : stepBody r t = some p) : p.remarks = r.remarks := by
  rcases stepBody_eq_some h with ⟨n, -, rfl⟩ | ⟨-, rfl⟩ <;> simp [remarks]

/-- A comment is added to the comments read so far. -/
theorem remarks_comment (c : Comment) (p : Place) :
    (p.comment c).remarks.Perm (p.remarks ++ [c]) := by
  rw [List.perm_iff_count]
  intro d
  cases p <;>
    simp only [comment, remarks, Heading.remarks, Heading.addComments, ParseTree.Routine.remarks,
      List.count_append] <;>
    omega

theorem remarks_addParam (d : Heading) (q : ParseTree.Param) :
    (d.addParam q).remarks = d.remarks ++ q.comments := by
  simp [Heading.addParam, Heading.remarks]

/-- A token that is no comment leaves the comments read so far. -/
theorem remarks_step {p p' : Place} {t : Placed Token} (h : p.step t = some p') :
    p'.remarks.Perm p.remarks := by
  cases moves_of_step h with
  | name => simp [remarks, Heading.remarks]
  | list => simp [remarks]
  | emptyList =>
    -- what is held of an empty list goes to the function
    rw [List.perm_iff_count]
    intro c
    simp only [remarks, Heading.remarks, Heading.addComments, List.count_append]
    omega
  | comma | listOver => simp [remarks, remarks_addParam]
  | returnType => simp [remarks, Heading.remarks, Heading.routine, ParseTree.Routine.remarks]
  | firstLine hbody =>
    rw [remarks_stepBody hbody]
    rfl
  | lineOver _ hbody =>
    rw [remarks_stepBody hbody, remarks_addLine]
    rfl
  | function | firstParam | nextParam | type | part => rfl

end Place

namespace State

/-- The comments read so far. -/
def remarks (s : State) : List Comment :=
  s.routines.flatMap ParseTree.Routine.remarks ++ s.place.remarks

/-- A token adds the comment that it is, if it is one. -/
theorem remarks_step {s s' : State} {t : Placed Token} (h : s.step t = some s') :
    s'.remarks.Perm (s.remarks ++ t.remark?.toList) := by
  obtain ⟨routines, place⟩ := s
  obtain ⟨offset, item⟩ := t
  rcases step_eq_some h with ⟨raw, rfl, rfl⟩ | ⟨r, leading, rfl, rfl, rfl⟩ | ⟨hi, p, hp, rfl⟩
  · rw [remarks, remarks, List.append_assoc]
    exact (place.remarks_comment ⟨offset, raw⟩).append_left _
  · simp [remarks, Place.remarks, Placed.remark?]
  · rw [Placed.remark?_eq_none hi, Option.toList_none, List.append_nil]
    exact (Place.remarks_step hp).append_left _

/-- A run adds the comments among its tokens. -/
theorem remarks_run {ts : List (Placed Token)} {s s' : State} (h : s.run ts = .ok s') :
    s'.remarks.Perm (s.remarks ++ ts.filterMap Placed.remark?) := by
  induction ts generalizing s with
  | nil =>
    cases h
    simp
  | cons t ts ih =>
    unfold run at h
    split at h
    · rename_i s₁ hstep
      have hone := (remarks_step hstep).append_right (ts.filterMap Placed.remark?)
      have hcons : (t :: ts).filterMap Placed.remark?
          = t.remark?.toList ++ ts.filterMap Placed.remark? := by
        cases ht : t.remark? <;> simp [ht]
      rw [hcons, ← List.append_assoc]
      exact (ih h).trans hone
    · cases h

end State

end Grammar

open Grammar

/-- **The comments of a tree are the comments of its text**, each once. -/
theorem remarks_of_parse {source : List Char} {tree : ParseTree} (h : parse source = .ok tree) :
    tree.remarks.Perm ((lex source).tokens.filterMap Placed.remark?) := by
  obtain ⟨-, s, hrun, hfinish⟩ := parse_eq_ok h
  have hs := State.remarks_run hrun
  obtain ⟨routines, place⟩ := s
  cases place with
  | outside leading =>
    cases hfinish
    exact hs
  | _ => cases hfinish

end ContractBasic
