/-
The parser reads what is written.

A state of the parser stands for the signs read so far.  A token adds one sign that it can stand for
and a comment adds none, so the tree of a text has the signs of the text: no token is dropped,
invented or moved.

* `Place.Moves`, `Place.moves_of_step` — what a step does, as a list
* `Place.step_signs`, `State.step_signs` — one more token is one more sign
* `State.Regular` — the trees inside a state are regular, and a step keeps them so
* `fits_and_canonical_of_ofSource` — the signs of the tree of a text are its tokens, comments apart,
  and its expressions have canonical shape
-/
import ContractBasic.Error
import ContractBasic.Proofs.Grammar.Statement

namespace ContractBasic

namespace Grammar

open ParseTree

/-! ### Places -/

/-- What has been read of a heading, with every parameter before a comma. -/
def Heading.signs (h : Heading) : List Sign :=
  [.word "Function", .word h.name, .token .lparen] ++
    h.params.flatMap fun p => p.signs ++ [.token .comma]

theorem Heading.typed_addParam {h : Heading} (hh : ∀ p ∈ h.params, p.type ≠ .unknown)
    {p : ParseTree.Param} (hp : p.type ≠ .unknown) :
    ∀ q ∈ (h.addParam p).params, q.type ≠ .unknown := by
  simpa [addParam, or_imp, forall_and] using ⟨hh, hp⟩

namespace Place

/-- What has been read of the current function. -/
def signs : Place → List Sign
  | outside _ => []
  | opened _ => [.word "Function"]
  | named h => [.word "Function", .word h.name]
  | params h _ | paramComma h _ => h.signs
  | paramName h _ n => h.signs ++ [.word n]
  | paramType h _ n type => h.signs ++ [.word n, .word type.keyword]
  | signature h =>
    [.word "Function", .word h.name, .token .lparen] ++
      separated (.token .comma) (h.params.map ParseTree.Param.signs) ++ [.token .rparen]
  | body r => r.openSigns
  | line r l reading => r.openSigns ++ .number l.number :: reading.signs
  | ended r _ => r.openSigns ++ [.word "End"]

/-- What the parts of a place satisfy beyond their signs. -/
def Regular : Place → Prop
  | outside _ | opened _ => True
  | named h | params h _ => h.params = []
  | paramComma h _ | paramName h _ _ | signature h => ∀ p ∈ h.params, p.type ≠ .unknown
  | paramType h _ _ type => (∀ p ∈ h.params, p.type ≠ .unknown) ∧ type ≠ .unknown
  | body r | ended r _ => r.Regular
  | line r _ reading => r.Regular ∧ reading.Regular

/-- The places behind a whole line, or behind the signature of a function. -/
theorem stepBody_eq_some {r : ParseTree.Routine} {t : Placed Token} {p : Place}
    (h : stepBody r t = some p) :
    (∃ n, t.item = .number n ∧ p = line r ⟨n, t.offset, none, []⟩ .start) ∨
      t.item = .word "End" ∧ p = ended r [] := by
  unfold stepBody at h
  split at h
  · rename_i n hn
    cases h
    exact .inl ⟨n, hn, rfl⟩
  · rename_i he
    cases h
    exact .inr ⟨he, rfl⟩
  · cases h

theorem stepBody_eq_none {r : ParseTree.Routine} {t : Placed Token} :
    stepBody r t = none ↔ t.item.endsLine = false := by
  unfold stepBody
  split
  · rename_i n hn
    simp [hn, Token.endsLine]
  · rename_i he
    simp [he, Token.endsLine]
  · rename_i hn he
    simp only [true_iff]
    cases hi : t.item with
    | number n => exact absurd hi (hn n)
    | word w =>
      simp only [Token.endsLine, decide_eq_false_iff_not]
      rintro rfl
      exact he hi
    | _ => rfl

/-- What one more token makes of a place, by the kind of the move.  Comments are no moves: they fit
everywhere and leave the kind of the place. -/
inductive Moves : Place → Placed Token → Place → Prop where
  | function (cs : List Comment) (offset : Nat) :
      Moves (outside cs) ⟨offset, .word "Function"⟩ (opened cs)
  | name (cs : List Comment) (offset : Nat) (w : String) :
      Moves (opened cs) ⟨offset, .word w⟩ (named ⟨w, offset, [], cs⟩)
  | list (d : Heading) (offset : Nat) : Moves (named d) ⟨offset, .lparen⟩ (params d [])
  | emptyList (d : Heading) (held : List Comment) (offset : Nat) :
      Moves (params d held) ⟨offset, .rparen⟩ (signature (d.addComments held))
  | firstParam (d : Heading) (held : List Comment) (offset : Nat) (w : String) :
      Moves (params d held) ⟨offset, .word w⟩ (paramName d held w)
  | nextParam (d : Heading) (held : List Comment) (offset : Nat) (w : String) :
      Moves (paramComma d held) ⟨offset, .word w⟩ (paramName d held w)
  | type (d : Heading) (held : List Comment) (n : String) (offset : Nat) {type : ValueType}
      (h : type ≠ .unknown) :
      Moves (paramName d held n) ⟨offset, .word type.keyword⟩ (paramType d held n type)
  | comma (d : Heading) (held : List Comment) (n : String) (type : ValueType) (offset : Nat) :
      Moves (paramType d held n type) ⟨offset, .comma⟩ (paramComma (d.addParam ⟨n, type, held⟩) [])
  | listOver (d : Heading) (held : List Comment) (n : String) (type : ValueType) (offset : Nat) :
      Moves (paramType d held n type) ⟨offset, .rparen⟩ (signature (d.addParam ⟨n, type, held⟩))
  | returnType (d : Heading) (offset : Nat) {type : ValueType} (h : type ≠ .unknown) :
      Moves (signature d) ⟨offset, .word type.keyword⟩ (body (d.routine type))
  | firstLine {r : ParseTree.Routine} {t : Placed Token} {p : Place} (h : stepBody r t = some p) :
      Moves (body r) t p
  | lineOver {r : ParseTree.Routine} {l : Line} {reading : StmtReading} {s : Option Stmt}
      {t : Placed Token} {p : Place} (hs : reading.whole? = some s)
      (h : stepBody (addLine r { l with statement := s }) t = some p) :
      Moves (line r l reading) t p
  /-- Before the first token a line may end, so a token that does not end it belongs to it. -/
  | part {r : ParseTree.Routine} {l : Line} {reading reading' : StmtReading} {t : Placed Token}
      (hend : reading = .start → t.item.endsLine = false)
      (h : reading.step t.item = some reading') :
      Moves (line r l reading) t (line r l reading')

/-- A step is one of the moves. -/
theorem moves_of_step {p p' : Place} {t : Placed Token} (h : p.step t = some p') : Moves p t p' := by
  obtain ⟨offset, item⟩ := t
  cases p with
  | outside leading =>
    by_cases hi : item = .word "Function"
    · subst hi
      cases h
      exact .function leading offset
    · simp [step, hi] at h
  | paramName d held n =>
    cases item with
    | word w =>
      obtain ⟨type, htype, rfl⟩ := Option.map_eq_some_iff.mp h
      obtain ⟨rfl, hne⟩ := ValueType.ofKeyword?_eq_some.mp htype
      exact .type d held n offset hne
    | _ => cases h
  | signature d =>
    cases item with
    | word w =>
      obtain ⟨type, htype, rfl⟩ := Option.map_eq_some_iff.mp h
      obtain ⟨rfl, hne⟩ := ValueType.ofKeyword?_eq_some.mp htype
      exact .returnType d offset hne
    | _ => cases h
  | body r => exact .firstLine h
  | line r l reading =>
    simp only [step, Option.or_eq_some_iff, Option.bind_eq_some_iff, Option.bind_eq_none_iff,
      Option.map_eq_some_iff] at h
    rcases h with ⟨s, hs, h⟩ | ⟨hend, reading', hstep, rfl⟩
    · exact .lineOver hs h
    · -- a line without a token may be over, so its first token is none that ends a line
      refine .part ?_ hstep
      rintro rfl
      exact stepBody_eq_none.mp (hend none rfl)
  | opened cs | named d | params d held | paramComma d held | paramType d held n type =>
    cases item <;> cases h
    all_goals constructor
  | ended r leading => cases h

theorem stepBody_signs {r : ParseTree.Routine} {t : Placed Token} {p : Place} (hr : r.Regular)
    (h : stepBody r t = some p) :
    ∃ g, p.signs = r.openSigns ++ [g] ∧ g.Fits t.item ∧ p.Regular := by
  rcases stepBody_eq_some h with ⟨n, hn, rfl⟩ | ⟨he, rfl⟩
  · exact ⟨.number n, rfl, hn, hr, trivial⟩
  · exact ⟨.word "End", rfl, he, hr⟩

theorem openSigns_addLine (r : ParseTree.Routine) (l : Line) :
    (addLine r l).openSigns = r.openSigns ++ l.signs := by
  simp [addLine, ParseTree.Routine.openSigns]

theorem regular_addLine {r : ParseTree.Routine} {l : Line} (hr : r.Regular)
    (hl : ∀ s ∈ l.statement, s.Regular) : (addLine r l).Regular := by
  refine ⟨hr.params, hr.returnType, ?_⟩
  intro m hm
  rcases List.mem_append.mp hm with hm | hm
  · exact hr.lines m hm
  · rw [List.mem_singleton.mp hm]
    exact hl

/-- One more token is one more sign of what has been read. -/
theorem step_signs {p p' : Place} {t : Placed Token} (hp : p.Regular) (h : p.step t = some p') :
    ∃ g, p'.signs = p.signs ++ [g] ∧ g.Fits t.item ∧ p'.Regular := by
  cases moves_of_step h with
  | function cs => exact ⟨.word "Function", rfl, rfl, trivial⟩
  | name cs _ w => exact ⟨.word w, rfl, rfl, rfl⟩
  | list d =>
    refine ⟨.token .lparen, ?_, rfl, hp⟩
    simp only [signs, Heading.signs, show d.params = [] from hp]
    rfl
  | emptyList d held =>
    have hd : d.params = [] := hp
    refine ⟨.token .rparen, ?_, rfl, ?_⟩
    · simp [signs, Heading.signs, Heading.addComments, hd]
    · simp [Regular, Heading.addComments, hd]
  | firstParam d held _ w =>
    have hd : d.params = [] := hp
    exact ⟨.word w, rfl, rfl, by simp [Regular, hd]⟩
  | nextParam d held _ w => exact ⟨.word w, rfl, rfl, hp⟩
  | @type d held n _ type hne =>
    exact ⟨.word type.keyword, by simp [signs], rfl, hp, hne⟩
  | comma d held n type =>
    refine ⟨.token .comma, ?_, rfl, Heading.typed_addParam hp.1 hp.2⟩
    simp [signs, Heading.signs, Heading.addParam, ParseTree.Param.signs]
  | listOver d held n type =>
    refine ⟨.token .rparen, ?_, rfl, Heading.typed_addParam hp.1 hp.2⟩
    simp [signs, Heading.signs, Heading.addParam, ParseTree.Param.signs, separated_concat,
      List.flatMap_map]
  | @returnType d _ type hne =>
    refine ⟨.word type.keyword, ?_, rfl, hp, hne, nofun⟩
    simp [signs, Heading.routine, ParseTree.Routine.openSigns]
  | firstLine hbody => exact stepBody_signs hp hbody
  | @lineOver r l reading s _ _ hs hbody =>
    -- the line is over, and its statement has just the signs read
    have hline : (addLine r { l with statement := s }).Regular := by
      refine regular_addLine hp.1 ?_
      rintro s' ⟨⟩
      exact hp.2.whole? hs
    obtain ⟨g, hg, hfits, hp'⟩ := stepBody_signs hline hbody
    refine ⟨g, ?_, hfits, hp'⟩
    rw [hg, openSigns_addLine, Line.signs, StmtReading.whole?_signs hs]
    simp [signs]
  | part hend hstep =>
    obtain ⟨g, hg, hfits⟩ := StmtReading.step_signs hp.2 hstep
    exact ⟨g, by simp [signs, hg], hfits, hp.1, hp.2.step hstep hend⟩

end Place

/-! ### States -/

namespace State

/-- What has been read of a text. -/
def signs (s : State) : List Sign := s.routines.flatMap ParseTree.Routine.signs ++ s.place.signs

/-- What the parts of a state satisfy beyond their signs. -/
structure Regular (s : State) : Prop where
  routines : ∀ r ∈ s.routines, r.Regular
  place : s.place.Regular

theorem regular_start : start.Regular := ⟨nofun, trivial⟩

end State

theorem Place.signs_comment (c : Comment) (p : Place) : (p.comment c).signs = p.signs := by
  cases p <;> rfl

theorem Place.Regular.comment {p : Place} (hp : p.Regular) (c : Comment) :
    (p.comment c).Regular := by
  cases p with
  | body r => exact ⟨hp.params, hp.returnType, hp.lines⟩
  | _ => exact hp

namespace State

/-- What a step does: it takes up a comment, or ends a function, or steps at the place alone. -/
theorem step_eq_some {s s' : State} {t : Placed Token} (h : s.step t = some s') :
    (∃ raw, t.item = .comment raw ∧ s' = { s with place := s.place.comment ⟨t.offset, raw⟩ }) ∨
    (∃ r leading, t.item = .word "Function" ∧ s.place = .ended r leading ∧
      s' = ⟨s.routines ++ [r], .outside leading⟩) ∨
    (t.item.isComment = false ∧ ∃ p, s.place.step t = some p ∧ s' = { s with place := p }) := by
  unfold step at h
  split at h
  · rename_i raw hi
    cases h
    exact .inl ⟨raw, hi, rfl⟩
  · rename_i r leading hi hplace
    cases h
    exact .inr (.inl ⟨r, leading, hi, hplace, rfl⟩)
  · rename_i hcomment _
    obtain ⟨p, hp, rfl⟩ := Option.map_eq_some_iff.mp h
    refine .inr (.inr ⟨?_, p, hp, rfl⟩)
    cases hi : t.item with
    | comment raw => exact absurd hi (hcomment raw)
    | _ => rfl

/-- A token is one more sign of what has been read, a comment is none. -/
theorem step_signs {s s' : State} {t : Placed Token} (hs : s.Regular) (h : s.step t = some s') :
    s'.Regular ∧
      if t.item.isComment then s'.signs = s.signs
      else ∃ g, s'.signs = s.signs ++ [g] ∧ g.Fits t.item := by
  obtain ⟨routines, place⟩ := s
  rcases step_eq_some h with ⟨raw, hi, rfl⟩ | ⟨r, leading, hi, rfl, rfl⟩ | ⟨hi, p, hp, rfl⟩
  · rw [hi]
    exact ⟨⟨hs.routines, hs.place.comment _⟩, by simp [Token.isComment, signs, Place.signs_comment]⟩
  · rw [hi]
    refine ⟨⟨?_, trivial⟩, ?_⟩
    · intro q hq
      rcases List.mem_append.mp hq with hq | hq
      · exact hs.routines q hq
      · rw [List.mem_singleton.mp hq]
        exact hs.place
    · refine ⟨.word "Function", ?_, rfl⟩
      simp [signs, Place.signs, ParseTree.Routine.signs]
  · obtain ⟨g, hg, hfits, hregular⟩ := Place.step_signs hs.place hp
    refine ⟨⟨hs.routines, hregular⟩, ?_⟩
    simp only [hi, Bool.false_eq_true, if_false]
    exact ⟨g, by simp [signs, hg], hfits⟩

/-- A run keeps reading what is written. -/
theorem run_signs {ts : List (Placed Token)} {s s' : State} {before : List Token}
    (hs : s.Regular) (hbefore : List.Forall₂ Sign.Fits s.signs before) (h : s.run ts = .ok s') :
    s'.Regular ∧ List.Forall₂ Sign.Fits s'.signs (before ++ codeTokens ts) := by
  -- the tokens read so far grow by one at each step, as the signs of the state do
  induction ts generalizing s before with
  | nil =>
    cases h
    simpa [codeTokens] using And.intro hs hbefore
  | cons t ts ih =>
    unfold run at h
    split at h
    · rename_i s₁ hstep
      obtain ⟨hs₁, hsigns⟩ := step_signs hs hstep
      by_cases hc : t.item.isComment = true
      · simp only [hc, if_true] at hsigns
        have h₁ := ih hs₁ (hsigns ▸ hbefore) h
        simpa [codeTokens, hc] using h₁
      · simp only [hc] at hsigns
        obtain ⟨g, hg, hfits⟩ := hsigns
        have hone : List.Forall₂ Sign.Fits s₁.signs (before ++ [t.item]) := by
          rw [hg]
          exact List.rel_append hbefore (.cons hfits .nil)
        have h₁ := ih hs₁ hone h
        simpa [codeTokens, hc] using h₁
    · cases h

/-- Where a text may end, the tree of the state has the signs of the state. -/
theorem finish_signs {s : State} {offset : Nat} {tree : ParseTree} (hs : s.Regular)
    (h : s.finish offset = .ok tree) : tree.signs = s.signs ∧ tree.Regular := by
  obtain ⟨routines, place⟩ := s
  -- a text ends between functions only, where the place has no signs
  cases place with
  | outside leading =>
    cases h
    exact ⟨by simp [signs, Place.signs, ParseTree.signs], hs.routines⟩
  | _ => cases h

end State

end Grammar

open Grammar

/-- The lexer and the parser have no fault to report where there is a tree. -/
theorem parse_eq_ok {source : List Char} {tree : ParseTree} (h : parse source = .ok tree) :
    (lex source).fault = none ∧ ∃ s, State.start.run (lex source).tokens = .ok s ∧
      s.finish (Text.byteSize source) = .ok tree := by
  unfold parse at h
  split at h
  · cases h
  · rename_i tokens hlex
    rw [hlex]
    refine ⟨rfl, ?_⟩
    cases hrun : State.start.run tokens with
    | error fault =>
      rw [hrun] at h
      cases h
    | ok s =>
      rw [hrun] at h
      exact ⟨s, rfl, h⟩

theorem ofSource_eq_ok {source : String} {tree : ParseTree} :
    ParseTree.ofSource source = .ok tree ↔ parse source.toList = .ok tree := by
  rw [ParseTree.ofSource]
  cases parse source.toList with
  | error fault => exact ⟨nofun, nofun⟩
  | ok t =>
    change Except.ok t = Except.ok tree ↔ _
    rw [Except.ok.injEq, Except.ok.injEq]

/-- The tree of a text is regular, and its signs are the tokens of the text. -/
theorem signs_of_parse {source : List Char} {tree : ParseTree} (h : parse source = .ok tree) :
    tree.Regular ∧ List.Forall₂ Sign.Fits tree.signs (codeTokens (lex source).tokens) := by
  obtain ⟨-, s, hrun, hfinish⟩ := parse_eq_ok h
  obtain ⟨hs, hsigns⟩ := State.run_signs State.regular_start .nil hrun
  obtain ⟨htree, hregular⟩ := State.finish_signs hs hfinish
  exact ⟨hregular, htree ▸ hsigns⟩

theorem ParseTree.Regular.canonical {tree : ParseTree} (h : tree.Regular) :
    ∀ e ∈ tree.expressions, e.Canonical := by
  intro e he
  obtain ⟨r, hr, he⟩ := List.mem_flatMap.mp he
  obtain ⟨l, hl, he⟩ := List.mem_filterMap.mp he
  obtain ⟨s, hs, he⟩ := Option.bind_eq_some_iff.mp he
  exact ((h r hr).lines l hl s hs).canonical e he

end ContractBasic
