/-
Whom a comment belongs to.

The tokens of a text are divided among the parts of its tree: the tokens of a line reach from its number
up to the next number or to the `End` of the function, those of a parameter from the separator before it
to the separator behind it, those of a function from behind the `End` of the function before it to its
own `End`, and the rest is behind the last function.  A comment belongs to the smallest part among whose
tokens it stands, but in a list without parameters it belongs to the function.

* `Segment` — what the tokens of a part say, and the comments among them
* `Line.Covers`, `ParamsCover`, `Routine.Covers`, `ParseTree.Covers` — the tokens of a part of a tree
* `State.Covers.step`, `State.covers_run` — one more token belongs to the part that is being read
* `ParseTree.attachment_of_ofSource` — the tree of a text divides the comments of the text
-/
import ContractBasic.Proofs.Grammar.Remarks
import ContractBasic.Proofs.Grammar.Uniqueness
import ContractBasic.Proofs.Token.Partition
import Mathlib.Data.List.Nodup

namespace ContractBasic

/-! ### Segments -/

/-- The comments among tokens. -/
def remarksOf (ts : List (Placed Token)) : List Comment := ts.filterMap Placed.remark?

@[simp] theorem remarksOf_append (ts us : List (Placed Token)) :
    remarksOf (ts ++ us) = remarksOf ts ++ remarksOf us :=
  List.filterMap_append

/-- A token of the code is no comment. -/
theorem remarksOf_cons {t : Placed Token} (ht : t.item.isComment = false) (ts : List (Placed Token)) :
    remarksOf (t :: ts) = remarksOf ts :=
  List.filterMap_cons_none (Placed.remark?_eq_none ht)

/-- A comment as a token. -/
def Comment.token (c : Comment) : Placed Token := ⟨c.offset, .comment c.item⟩

/-- Whether tokens are those of some code with some comments in between. -/
structure Segment (ts : List (Placed Token)) (code : List Token) (comments : List Comment) :
    Prop where
  code : codeTokens ts = code
  comments : remarksOf ts = comments

namespace Segment

variable {ts : List (Placed Token)} {code : List Token} {comments : List Comment}

theorem nil : Segment [] [] [] := ⟨rfl, rfl⟩

/-- One more token of the code. -/
theorem concat (h : Segment ts code comments) {t : Placed Token} (ht : t.item.isComment = false) :
    Segment (ts ++ [t]) (code ++ [t.item]) comments := by
  obtain ⟨rfl, rfl⟩ := h
  exact ⟨by simp [codeTokens, ht], by simp [remarksOf, Placed.remark?_eq_none ht]⟩

/-- One more comment. -/
theorem comment (h : Segment ts code comments) (c : Comment) :
    Segment (ts ++ [c.token]) code (comments ++ [c]) := by
  obtain ⟨rfl, rfl⟩ := h
  exact ⟨by simp [codeTokens, Comment.token, Token.isComment],
    by simp [remarksOf, Comment.token, Placed.remark?]⟩

end Segment

namespace ParseTree

/-! ### Tokens of the parts of a tree -/

/-- Whether tokens are those of a line: its number, then its statement and its comments. -/
def Line.Covers (l : Line) (ts : List (Placed Token)) : Prop :=
  ∃ body code, ts = ⟨l.offset, .number l.number⟩ :: body ∧ Segment body code l.comments ∧
    List.Forall₂ Sign.Fits l.rest code

/-- Whether tokens are those of a parameter: its name, its type and its comments. -/
def Param.Covers (p : Param) (ts : List (Placed Token)) : Prop :=
  Segment ts [.word p.name, .word p.type.keyword] p.comments

/-- Whether tokens are those of some parameters, with a comma between every two of them. -/
inductive ParamsCover : List Param → List (Placed Token) → Prop where
  | single {p : Param} {ts : List (Placed Token)} (h : p.Covers ts) : ParamsCover [p] ts
  | concat {ps : List Param} {p : Param} {ts us : List (Placed Token)} {offset : Nat}
      (hps : ParamsCover ps ts) (hp : p.Covers us) :
      ParamsCover (ps ++ [p]) (ts ++ ⟨offset, .comma⟩ :: us)

theorem ParamsCover.ne_nil {ps : List Param} {ts : List (Placed Token)} (h : ParamsCover ps ts) :
    ps ≠ [] := by
  cases h with
  | single => exact List.cons_ne_nil _ _
  | concat => exact List.append_ne_nil_of_right_ne_nil _ (List.cons_ne_nil _ _)

/-- Whether tokens are those of a parameter list; only without parameters there may be comments that
belong to none. -/
inductive ListCovers : List Param → List Comment → List (Placed Token) → Prop where
  | empty {spare : List Comment} {ts : List (Placed Token)} (h : Segment ts [] spare) :
      ListCovers [] spare ts
  | params {ps : List Param} {ts : List (Placed Token)} (h : ParamsCover ps ts) :
      ListCovers ps [] ts

end ParseTree

namespace Grammar

open ParseTree

/-- Whether tokens are those of a heading up to its parameter list, behind `closing`, and the `code` of
a type behind the list.  Its comments stand around the list, or in it if the list is empty. -/
inductive Heading.Covers (closing : List Token) (h : Heading) (code : List Token) :
    List (Placed Token) → Prop where
  | intro {head list rest : List (Placed Token)} {offset offset' : Nat}
      {before spare behind : List Comment}
      (hhead : Segment head (closing ++ [.word "Function", .word h.name]) before)
      (hlist : ListCovers h.params spare list) (hrest : Segment rest code behind)
      (hcomments : h.comments = before ++ spare ++ behind) :
      Covers closing h code (head ++ ⟨offset, .lparen⟩ :: (list ++ ⟨offset', .rparen⟩ :: rest))

end Grammar

namespace ParseTree

open Grammar

/-- The heading of a function. -/
def Routine.heading (r : Routine) : Heading := ⟨r.name, r.offset, r.params, r.comments⟩

/-- Whether tokens are those of a function up to its `End`: its first line, then its numbered lines one
by one. -/
def Routine.OpenCovers (closing : List Token) (r : Routine) (ts : List (Placed Token)) : Prop :=
  ∃ head rows, ts = head ++ rows.flatten ∧
    r.heading.Covers closing [.word r.returnType.keyword] head ∧
    List.Forall₂ Line.Covers r.lines rows

/-- Whether tokens are those of a function, from behind the `End` of the function before, which `closing`
is left of, to its own `End`. -/
def Routine.Covers (closing : List Token) (r : Routine) (ts : List (Placed Token)) : Prop :=
  ∃ body offset, ts = body ++ [⟨offset, .word "End"⟩] ∧ r.OpenCovers closing body

/-- What is left of functions behind the `End` of the last of them. -/
def closingOf : List Routine → List Token
  | [] => []
  | _ :: _ => [.word "Function"]

/-- Whether tokens are those of some functions, up to the `End` of the last of them. -/
inductive RoutinesCover : List Routine → List (Placed Token) → Prop where
  | nil : RoutinesCover [] []
  | concat {rs : List Routine} {r : Routine} {ts us : List (Placed Token)}
      (hrs : RoutinesCover rs ts) (hr : r.Covers (closingOf rs) us) :
      RoutinesCover (rs ++ [r]) (ts ++ us)

end ParseTree

/-- Whether tokens are those of a tree: those of its functions, and behind them what is left of the last
function and the trailing comments. -/
def ParseTree.Covers (t : ParseTree) (ts : List (Placed Token)) : Prop :=
  ∃ body tail, ts = body ++ tail ∧ RoutinesCover t.routines body ∧
    Segment tail (closingOf t.routines) t.trailing

namespace Grammar

open ParseTree

/-! ### Tokens read so far -/

/-- Whether tokens are those of a heading inside its parameter list, where `code` and the comments `held`
have been read of the next parameter. -/
inductive Heading.Inside (closing : List Token) (h : Heading) (code : List Token)
    (held : List Comment) : List (Placed Token) → Prop where
  | first {head current : List (Placed Token)} {offset : Nat}
      (hhead : Segment head (closing ++ [.word "Function", .word h.name]) h.comments)
      (hparams : h.params = []) (hcurrent : Segment current code held) :
      Inside closing h code held (head ++ ⟨offset, .lparen⟩ :: current)
  | next {head list current : List (Placed Token)} {offset offset' : Nat}
      (hhead : Segment head (closing ++ [.word "Function", .word h.name]) h.comments)
      (hparams : ParamsCover h.params list) (hcurrent : Segment current code held) :
      Inside closing h code held
        (head ++ ⟨offset, .lparen⟩ :: (list ++ ⟨offset', .comma⟩ :: current))

namespace Heading

variable {closing code : List Token} {h : Heading} {held : List Comment}
  {ts : List (Placed Token)}

theorem Inside.concat (hts : h.Inside closing code held ts) {t : Placed Token}
    (ht : t.item.isComment = false) : h.Inside closing (code ++ [t.item]) held (ts ++ [t]) := by
  cases hts with
  | first hhead hparams hcurrent =>
    simpa using Inside.first hhead hparams (hcurrent.concat ht)
  | next hhead hparams hcurrent =>
    simpa using Inside.next hhead hparams (hcurrent.concat ht)

theorem Inside.comment (hts : h.Inside closing code held ts) (c : Comment) :
    h.Inside closing code (held ++ [c]) (ts ++ [c.token]) := by
  cases hts with
  | first hhead hparams hcurrent =>
    simpa using Inside.first hhead hparams (hcurrent.comment c)
  | next hhead hparams hcurrent =>
    simpa using Inside.next hhead hparams (hcurrent.comment c)

/-- A parameter that is whole is the last one of those read so far. -/
theorem Inside.exists_params {n : String} {type : ValueType}
    (hts : h.Inside closing [.word n, .word type.keyword] held ts) :
    ∃ head list offset, ts = head ++ ⟨offset, .lparen⟩ :: list ∧
      Segment head (closing ++ [.word "Function", .word h.name]) h.comments ∧
      ParamsCover (h.params ++ [⟨n, type, held⟩]) list := by
  cases hts with
  | first hhead hparams hcurrent =>
    rw [hparams]
    exact ⟨_, _, _, rfl, hhead, .single hcurrent⟩
  | next hhead hparams hcurrent => exact ⟨_, _, _, rfl, hhead, .concat hparams hcurrent⟩

/-- An empty list that is whole leaves its comments to the heading. -/
theorem Inside.close (hts : h.Inside closing [] held ts) (hparams : h.params = []) (offset : Nat) :
    (h.addComments held).Covers closing [] (ts ++ [⟨offset, .rparen⟩]) := by
  cases hts with
  | @first _ current _ hhead _ hcurrent =>
    have hlist : ListCovers h.params held current := by
      rw [hparams]
      exact .empty hcurrent
    simpa using Covers.intro (h := h.addComments held) hhead hlist .nil (by simp [addComments])
  | next hhead hcover hcurrent => exact absurd hparams hcover.ne_nil

theorem Covers.concat (hts : h.Covers closing code ts) {t : Placed Token}
    (ht : t.item.isComment = false) : h.Covers closing (code ++ [t.item]) (ts ++ [t]) := by
  obtain ⟨hhead, hlist, hrest, hcomments⟩ := hts
  simpa using Covers.intro hhead hlist (hrest.concat ht) hcomments

theorem Covers.comment (hts : h.Covers closing code ts) (c : Comment) :
    (h.addComments [c]).Covers closing code (ts ++ [c.token]) := by
  obtain ⟨hhead, hlist, hrest, hcomments⟩ := hts
  simpa using Covers.intro (h := h.addComments [c]) hhead hlist (hrest.comment c)
    (by simp [addComments, hcomments])

end Heading

namespace Place

/-- Whether tokens are those read of the current function, behind what is left of the one before. -/
def Covers (closing : List Token) (ts : List (Placed Token)) : Place → Prop
  | outside cs => Segment ts closing cs
  | opened cs => Segment ts (closing ++ [.word "Function"]) cs
  | named h => Segment ts (closing ++ [.word "Function", .word h.name]) h.comments ∧ h.params = []
  | params h held => h.Inside closing [] held ts ∧ h.params = []
  | paramComma h held => h.Inside closing [] held ts
  | paramName h held n => h.Inside closing [.word n] held ts
  | paramType h held n type => h.Inside closing [.word n, .word type.keyword] held ts
  | signature h => h.Covers closing [] ts
  | body r => r.heading.Covers closing [.word r.returnType.keyword] ts ∧ r.lines = []
  | line r l reading => ∃ opened body code, ts = opened ++ ⟨l.offset, .number l.number⟩ :: body ∧
      r.OpenCovers closing opened ∧ Segment body code l.comments ∧
      List.Forall₂ Sign.Fits reading.signs code
  | ended r leading => ∃ covered tail, ts = covered ++ tail ∧ r.Covers closing covered ∧
      Segment tail [] leading

variable {closing : List Token} {ts : List (Placed Token)}

/-- A line that is whole belongs to its function. -/
theorem openCovers_addLine {r : ParseTree.Routine} {l : Line} {us : List (Placed Token)}
    (hr : r.OpenCovers closing ts) (hl : l.Covers us) : (addLine r l).OpenCovers closing (ts ++ us) := by
  obtain ⟨head, rows, rfl, hhead, hrows⟩ := hr
  exact ⟨head, rows ++ [us], by simp, hhead, List.rel_append hrows (.cons hl .nil)⟩

/-- A number opens a line of the function that is read, and `End` closes the function. -/
theorem covers_stepBody {r : ParseTree.Routine} {t : Placed Token} {p : Place}
    (hr : r.OpenCovers closing ts) (h : stepBody r t = some p) : p.Covers closing (ts ++ [t]) := by
  obtain ⟨offset, item⟩ := t
  rcases stepBody_eq_some h with ⟨n, rfl, rfl⟩ | ⟨rfl, rfl⟩
  · exact ⟨ts, [], [], rfl, hr, .nil, .nil⟩
  · exact ⟨ts ++ [⟨offset, .word "End"⟩], [], by simp, ⟨ts, offset, rfl, hr⟩, .nil⟩

/-- A comment belongs to what is being read. -/
theorem Covers.comment {p : Place} (hp : p.Covers closing ts) (c : Comment) :
    (p.comment c).Covers closing (ts ++ [c.token]) := by
  cases p with
  | outside cs => exact Segment.comment hp c
  | opened cs => exact Segment.comment hp c
  | named h => exact ⟨hp.1.comment c, hp.2⟩
  | params h held => exact ⟨hp.1.comment c, hp.2⟩
  | paramComma h held => exact Heading.Inside.comment hp c
  | paramName h held n => exact Heading.Inside.comment hp c
  | paramType h held n type => exact Heading.Inside.comment hp c
  | signature h => exact Heading.Covers.comment hp c
  | body r => exact ⟨hp.1.comment c, hp.2⟩
  | line r l reading =>
    obtain ⟨opened, body, code, rfl, hr, hbody, hfits⟩ := hp
    exact ⟨opened, body ++ [c.token], code, by simp, hr, hbody.comment c, hfits⟩
  | ended r leading =>
    obtain ⟨covered, tail, rfl, hr, htail⟩ := hp
    exact ⟨covered, tail ++ [c.token], by simp, hr, htail.comment c⟩

/-- A token of the code belongs to what is being read, or opens the next part. -/
theorem Covers.step {p p' : Place} {t : Placed Token} (hregular : p.Regular)
    (hp : p.Covers closing ts) (ht : t.item.isComment = false) (h : p.step t = some p') :
    p'.Covers closing (ts ++ [t]) := by
  cases moves_of_step h with
  | function => exact Segment.concat hp ht
  | name =>
    have hname := Segment.concat hp ht
    rw [List.append_assoc] at hname
    exact ⟨hname, rfl⟩
  | list => exact ⟨.first hp.1 hp.2 .nil, hp.2⟩
  | emptyList _ _ offset => exact hp.1.close hp.2 offset
  | firstParam => exact hp.1.concat ht
  | nextParam | type => exact Heading.Inside.concat hp ht
  | comma d held n type =>
    obtain ⟨head, list, o, rfl, hhead, hlist⟩ := Heading.Inside.exists_params hp
    simpa [Covers] using Heading.Inside.next (h := d.addParam ⟨n, type, held⟩) hhead hlist .nil
  | listOver d held n type =>
    obtain ⟨head, list, o, rfl, hhead, hlist⟩ := Heading.Inside.exists_params hp
    simpa [Covers] using Heading.Covers.intro (h := d.addParam ⟨n, type, held⟩) hhead
      (.params hlist) .nil (by simp [Heading.addParam])
  | returnType => exact ⟨Heading.Covers.concat hp ht, rfl⟩
  | firstLine hbody =>
    refine covers_stepBody ⟨ts, [], by simp, hp.1, ?_⟩ hbody
    rw [hp.2]
    exact .nil
  | @lineOver r l reading s _ _ hwhole hbody =>
    obtain ⟨opened, row, code, rfl, hr, hrow, hfits⟩ := hp
    -- the line is over, and what has been read of it is its statement
    have hline : Line.Covers { l with statement := s } (⟨l.offset, .number l.number⟩ :: row) := by
      rw [← StmtReading.whole?_signs hwhole] at hfits
      exact ⟨row, code, rfl, hrow, hfits⟩
    exact covers_stepBody (openCovers_addLine hr hline) hbody
  | part _ hstep =>
    obtain ⟨opened, row, code, rfl, hr, hrow, hfits⟩ := hp
    obtain ⟨g, hsigns, hg⟩ := StmtReading.step_signs hregular.2 hstep
    refine ⟨opened, row ++ [t], code ++ [t.item], by simp, hr, hrow.concat ht, ?_⟩
    rw [hsigns]
    exact List.rel_append hfits (.cons hg .nil)

end Place

/-! ### Runs -/

namespace State

/-- Whether tokens are those read so far. -/
def Covers (s : State) (ts : List (Placed Token)) : Prop :=
  ∃ body tail, ts = body ++ tail ∧ RoutinesCover s.routines body ∧
    s.place.Covers (closingOf s.routines) tail

/-- One more token belongs to the part that is being read, or opens the next part. -/
theorem Covers.step {s s' : State} {ts : List (Placed Token)} {t : Placed Token}
    (hregular : s.Regular) (hs : s.Covers ts) (h : s.step t = some s') : s'.Covers (ts ++ [t]) := by
  obtain ⟨routines, place⟩ := s
  obtain ⟨body, tail, rfl, hbody, htail⟩ := hs
  obtain ⟨offset, item⟩ := t
  rcases step_eq_some h with ⟨raw, rfl, rfl⟩ | ⟨r, leading, rfl, rfl, rfl⟩ | ⟨hi, p, hp, rfl⟩
  · exact ⟨body, _, List.append_assoc _ _ _, hbody, htail.comment ⟨offset, raw⟩⟩
  · obtain ⟨covered, rest, rfl, hr, hrest⟩ := htail
    refine ⟨body ++ covered, rest ++ [⟨offset, .word "Function"⟩], by simp, hbody.concat hr, ?_⟩
    have hclosing : closingOf (routines ++ [r]) = [.word "Function"] := by cases routines <;> rfl
    rw [hclosing]
    exact hrest.concat (t := ⟨offset, .word "Function"⟩) rfl
  · exact ⟨body, _, List.append_assoc _ _ _, hbody, htail.step hregular.place hi hp⟩

/-- The tokens of a run belong to what is read. -/
theorem covers_run {ts : List (Placed Token)} {s s' : State} {before : List (Placed Token)}
    (hregular : s.Regular) (hs : s.Covers before) (h : s.run ts = .ok s') :
    s'.Covers (before ++ ts) := by
  induction ts generalizing s before with
  | nil =>
    cases h
    rwa [List.append_nil]
  | cons t ts ih =>
    unfold run at h
    split at h
    · rename_i s₁ hstep
      rw [List.append_cons]
      exact ih (step_signs hregular hstep).1 (hs.step hregular hstep) h
    · cases h

theorem covers_start : start.Covers [] := ⟨[], [], rfl, .nil, .nil⟩

end State

end Grammar

open Grammar

/-- The tokens of a text are divided among the parts of its tree. -/
theorem covers_of_parse {source : List Char} {tree : ParseTree} (h : parse source = .ok tree) :
    tree.Covers (lex source).tokens := by
  obtain ⟨-, s, hrun, hfinish⟩ := parse_eq_ok h
  have hs := State.covers_run State.regular_start State.covers_start hrun
  obtain ⟨routines, place⟩ := s
  cases place with
  | outside leading =>
    cases hfinish
    exact hs
  | _ => cases hfinish

/-! ### Lists of comments -/

namespace ParseTree

theorem ParamsCover.sublist {ps : List Param} {ts : List (Placed Token)} (h : ParamsCover ps ts) :
    ∀ p ∈ ps, p.comments.Sublist (remarksOf ts) := by
  induction h with
  | single h =>
    intro q hq
    rw [List.mem_singleton.mp hq, ← h.comments]
  | @concat ps p ts us offset hps hp ih =>
    intro q hq
    rw [remarksOf_append, remarksOf_cons rfl]
    rcases List.mem_append.mp hq with hq | hq
    · exact (ih q hq).trans (List.sublist_append_left _ _)
    · rw [List.mem_singleton.mp hq, ← hp.comments]
      exact List.sublist_append_right _ _

theorem ListCovers.sublist {ps : List Param} {spare : List Comment} {ts : List (Placed Token)}
    (h : ListCovers ps spare ts) :
    spare.Sublist (remarksOf ts) ∧ ∀ p ∈ ps, p.comments.Sublist (remarksOf ts) := by
  cases h with
  | empty h => exact ⟨by rw [h.comments], nofun⟩
  | params h => exact ⟨List.nil_sublist _, h.sublist⟩

theorem Line.sublist_of_covers {ls : List Line} {rows : List (List (Placed Token))}
    (h : List.Forall₂ Covers ls rows) : ∀ l ∈ ls, l.comments.Sublist (remarksOf rows.flatten) := by
  induction h with
  | nil => exact nofun
  | @cons l row ls rows hl hls ih =>
    obtain ⟨body, code, rfl, hbody, -⟩ := hl
    intro m hm
    rw [List.flatten_cons, List.cons_append, remarksOf_cons rfl, remarksOf_append, hbody.comments]
    rcases List.mem_cons.mp hm with rfl | hm
    · exact List.sublist_append_left _ _
    · exact (ih m hm).trans (List.sublist_append_right _ _)

end ParseTree

theorem Grammar.Heading.Covers.sublist {closing code : List Token} {h : Heading}
    {ts : List (Placed Token)} (hts : h.Covers closing code ts) :
    h.comments.Sublist (remarksOf ts) ∧ ∀ p ∈ h.params, p.comments.Sublist (remarksOf ts) := by
  obtain @⟨head, list, rest, o, o', before, spare, behind, hhead, hlist, hrest, hcomments⟩ := hts
  obtain ⟨hspare, hparams⟩ := hlist.sublist
  rw [remarksOf_append, remarksOf_cons rfl, remarksOf_append, remarksOf_cons rfl, hhead.comments,
    hrest.comments, hcomments, List.append_assoc]
  refine ⟨(hspare.append_right behind).append_left before, fun p hp => (hparams p hp).trans ?_⟩
  exact (List.sublist_append_left _ _).trans (List.sublist_append_right _ _)

namespace ParseTree

/-- The lists of comments of a function and of its parameters and lines. -/
def Routine.commentLists (r : Routine) : List (List Comment) :=
  r.comments :: (r.params.map Param.comments ++ r.lines.map Line.comments)

theorem Routine.flatten_commentLists (r : Routine) : r.commentLists.flatten = r.remarks := by
  rw [commentLists, List.flatten_cons, List.flatten_append, ← List.flatMap_def, ← List.flatMap_def,
    remarks, List.append_assoc]

/-- The comments of each list stand in this order among the tokens of the function. -/
theorem Routine.Covers.sublist {closing : List Token} {r : Routine} {ts : List (Placed Token)}
    (h : r.Covers closing ts) : ∀ cs ∈ r.commentLists, cs.Sublist (remarksOf ts) := by
  obtain ⟨-, offset, rfl, first, rows, rfl, hfirst, hrows⟩ := h
  obtain ⟨hcomments, hparams⟩ := hfirst.sublist
  have hlines := Line.sublist_of_covers hrows
  intro cs hcs
  rw [remarksOf_append, remarksOf_cons rfl, remarksOf_append, List.append_assoc]
  simp only [commentLists, List.mem_cons, List.mem_append, List.mem_map] at hcs
  rcases hcs with rfl | ⟨p, hp, rfl⟩ | ⟨l, hl, rfl⟩
  · exact hcomments.trans (List.sublist_append_left _ _)
  · exact (hparams p hp).trans (List.sublist_append_left _ _)
  · exact (hlines l hl).trans
      ((List.sublist_append_left _ _).trans (List.sublist_append_right _ _))

theorem RoutinesCover.sublist {rs : List Routine} {ts : List (Placed Token)}
    (h : RoutinesCover rs ts) :
    ∀ cs ∈ rs.flatMap Routine.commentLists, cs.Sublist (remarksOf ts) := by
  induction h with
  | nil => exact nofun
  | @concat rs r ts us hrs hr ih =>
    intro cs hcs
    rw [remarksOf_append]
    rw [List.flatMap_append, List.flatMap_singleton, List.mem_append] at hcs
    rcases hcs with hcs | hcs
    · exact (ih cs hcs).trans (List.sublist_append_left _ _)
    · exact (hr.sublist cs hcs).trans (List.sublist_append_right _ _)

/-- The lists of comments of a tree. -/
def commentLists (t : ParseTree) : List (List Comment) :=
  t.routines.flatMap Routine.commentLists ++ [t.trailing]

/-- The lists hold the comments anywhere in the tree, each once. -/
theorem flatten_commentLists (t : ParseTree) : t.commentLists.flatten = t.remarks := by
  rw [commentLists, remarks, List.flatten_append, List.flatten_singleton, List.flatMap_def,
    List.flatten_flatten, List.map_map, List.flatMap_def]
  congr 2
  exact List.map_congr_left fun r _ => r.flatten_commentLists

/-- The comments of each list stand in this order among the tokens of the tree. -/
theorem Covers.sublist {t : ParseTree} {ts : List (Placed Token)} (h : t.Covers ts) :
    ∀ cs ∈ t.commentLists, cs.Sublist (remarksOf ts) := by
  obtain ⟨body, tail, rfl, hbody, htail⟩ := h
  intro cs hcs
  rw [remarksOf_append]
  rcases List.mem_append.mp hcs with hcs | hcs
  · exact (hbody.sublist cs hcs).trans (List.sublist_append_left _ _)
  · rw [List.mem_singleton.mp hcs, ← htail.comments]
    exact List.sublist_append_right _ _

end ParseTree

/-! ### Order -/

/-- The comments of a text stand at growing offsets. -/
theorem pairwise_offset_remarksOf {source : List Char} (h : (lex source).fault = none) :
    (remarksOf (lex source).tokens).Pairwise fun c d => c.offset < d.offset := by
  -- the marks stand at growing offsets, and the comments are some of them
  have hmarks := (cut_marks h).increasing
  rw [Lexing.marks, List.map_append, List.pairwise_append, List.map_map, List.pairwise_map] at hmarks
  refine hmarks.1.filterMap _ fun t u htu c hc d hd => ?_
  have hoffset : ∀ {t : Placed Token} {c : Comment}, t.remark? = some c → c.offset = t.offset := by
    intro t c hc
    unfold Placed.remark? at hc
    split at hc
    · cases hc
      rfl
    · cases hc
  rw [hoffset hc, hoffset hd]
  exact htu

/-- Comments that stand at growing offsets in some order are in this order once they are sorted. -/
theorem mergeSort_eq_of_perm {cs ds : List Comment} (hperm : cs.Perm ds)
    (hds : ds.Pairwise fun c d => c.offset < d.offset) :
    cs.mergeSort (fun c d => c.offset ≤ d.offset) = ds := by
  have hsort := (cs.mergeSort_perm fun c d => c.offset ≤ d.offset).trans hperm
  have hsorted : (cs.mergeSort fun c d => c.offset ≤ d.offset).Pairwise
      fun c d => c.offset ≤ d.offset := by
    refine (List.pairwise_mergeSort ?_ ?_ cs).imp of_decide_eq_true
    · intro a b c hab hbc
      exact decide_eq_true (Nat.le_trans (of_decide_eq_true hab) (of_decide_eq_true hbc))
    · intro a b
      simpa using Nat.le_total a.offset b.offset
  -- no two of the comments stand at the same offset
  have hdistinct : (ds.map Placed.offset).Nodup := List.pairwise_map.mpr (hds.imp Nat.ne_of_lt)
  refine hsort.eq_of_pairwise ?_ hsorted (hds.imp Nat.le_of_lt)
  intro a b ha hb hab hba
  exact List.inj_on_of_nodup_map hdistinct (hsort.mem_iff.mp ha) hb (Nat.le_antisymm hab hba)

namespace ParseTree

/-- **Every comment of a text stands in the tree once, and where it belongs.**  The tokens of the text are
divided among the parts of the tree, and each part has the comments among its tokens; all comments of
the tree, sorted by offset, are those of the text; and each list is in the order of the text. -/
theorem attachment_of_ofSource {source : String} {tree : ParseTree}
    (h : ofSource source = .ok tree) :
    tree.Covers (lex source.toList).tokens ∧
      tree.commentLists.flatten.mergeSort (fun c d => c.offset ≤ d.offset)
        = remarksOf (lex source.toList).tokens ∧
      ∀ cs ∈ tree.commentLists, cs.Pairwise fun c d => c.offset < d.offset := by
  have hparse := ofSource_eq_ok.mp h
  have hcovers := covers_of_parse hparse
  have hsorted := pairwise_offset_remarksOf (parse_eq_ok hparse).1
  -- no comment is lost and none is made, and their offsets tell them apart
  have hperm : tree.commentLists.flatten.Perm (remarksOf (lex source.toList).tokens) := by
    rw [flatten_commentLists]
    exact remarks_of_parse hparse
  exact ⟨hcovers, mergeSort_eq_of_perm hperm hsorted,
    fun cs hcs => hsorted.sublist (hcovers.sublist cs hcs)⟩

/-- Two functions with comments everywhere, one of them with an empty list of parameters. -/
def remarkedFunctions : String :=
  "//a\nFunction /*b*/ f(/*c*/) /*d*/ Uint64 //e\n1 /*f*/ g(/*g*/ 1, \"\") //h\n2 /*i*/ End /*j*/ " ++
    "Function\nFunction g(/*k*/ x /*l*/ Uint64 /*m*/, y String) Uint64 End Function //n"

theorem attachment_of_ofSource_remarkedFunctions : ∃ tree, ofSource remarkedFunctions = .ok tree ∧
    tree.commentLists.map (fun cs => cs.map Placed.item)
      = [["//a", "/*b*/", "/*c*/", "/*d*/", "//e"], ["/*f*/", "/*g*/", "//h"], ["/*i*/"],
        ["/*j*/"], ["/*k*/", "/*l*/", "/*m*/"], [], ["//n"]] ∧
    tree.Covers (lex remarkedFunctions.toList).tokens ∧
    tree.commentLists.flatten.mergeSort (fun c d => c.offset ≤ d.offset)
      = remarksOf (lex remarkedFunctions.toList).tokens ∧
    ∀ cs ∈ tree.commentLists, cs.Pairwise fun c d => c.offset < d.offset := by
  have h : (ofSource remarkedFunctions).toOption.map
        (fun t => t.commentLists.map fun cs => cs.map Placed.item)
      = some [["//a", "/*b*/", "/*c*/", "/*d*/", "//e"], ["/*f*/", "/*g*/", "//h"], ["/*i*/"],
        ["/*j*/"], ["/*k*/", "/*l*/", "/*m*/"], [], ["//n"]] := by
    decide +kernel
  cases htree : ofSource remarkedFunctions with
  | ok tree =>
    rw [htree] at h
    exact ⟨tree, rfl, Option.some.inj h, attachment_of_ofSource htree⟩
  | error e =>
    rw [htree] at h
    cases h

end ParseTree

end ContractBasic
