/-
The parser accepts what the grammar writes.

A regular tree, written out with its comments, is read back as it is.  Comments stand in this row
where none but their owner can claim them: before the function, behind a parameter, behind the
statement of a line, and behind the last function.

* `ParseTree.row` — the row of signs of a tree, comments included
* `Place.Ready` — places where a line may end
* `State.read_line`, `State.read_routine` — lines and functions are read as they are written
* `parse_of_row` — a text whose tokens are the row of a regular tree has this tree up to offsets
-/
import ContractBasic.Proofs.Grammar.Offsets
import ContractBasic.Proofs.Grammar.Soundness

namespace ContractBasic

/-! ### Rows with comments -/

namespace ParseTree

/-- The tokens of comments. -/
def commentTokens (cs : List Comment) : List Token := cs.map fun c => .comment c.item

/-- The tokens of a parameter and its comments. -/
def Param.tokens (p : Param) : List Token :=
  [.word p.name, .word p.type.keyword] ++ commentTokens p.comments

/-- The tokens of a function before its first line, and its comments. -/
def Routine.headTokens (r : Routine) : List Token :=
  commentTokens r.comments ++ [.word "Function", .word r.name, .lparen] ++
    separated .comma (r.params.map Param.tokens) ++ [.rparen, .word r.returnType.keyword]

/-- The signs of a line and its comments. -/
def Line.row (l : Line) : List Sign := l.signs ++ (commentTokens l.comments).map .token

/-- The signs of a function and its comments. -/
def Routine.row (r : Routine) : List Sign :=
  r.headTokens.map .token ++ r.lines.flatMap Line.row ++ [.word "End", .word "Function"]

end ParseTree

/-- The signs of a tree, comments included. -/
def ParseTree.row (t : ParseTree) : List Sign :=
  t.routines.flatMap Routine.row ++ (commentTokens t.trailing).map .token

namespace Grammar

open ParseTree

/-! ### Statements inside lines -/

namespace ExprReading

/-- Behind a whole expression neither a number nor a word can stand. -/
theorem endsLine_of_step {r r' : ExprReading} {t : Token} {e : Expr} (he : r.value? = some e)
    (h : r.step t = some r') : t.endsLine = false := by
  -- a whole expression has no open enclosure, and no chain goes on with a number or a word
  obtain ⟨es, spot⟩ := r
  cases t with
  | number n =>
    cases es with
    | cons c es => cases he
    | nil =>
      cases spot with
      | chain e' => cases h
      | named slot f => cases h
      | _ => cases he
  | word w =>
    cases es with
    | cons c es => cases he
    | nil =>
      cases spot with
      | chain e' => cases h
      | named slot f => cases h
      | _ => cases he
  | _ => rfl

theorem step_comment (r : ExprReading) (raw : String) : r.step (.comment raw) = none := by
  obtain ⟨es, spot⟩ := r
  have hchain : ∀ e, stepChain es e (.comment raw) = none := by
    intro e
    rcases es with _ | ⟨c, es⟩
    · rfl
    · cases c <;> rfl
  cases spot with
  | operand slot => rfl
  | called slot f => rfl
  | chain e => exact hchain e
  | named slot f => exact hchain (slot.fill (.name f))

end ExprReading

namespace StmtReading

/-- Where a statement may end, a token that ends the line does not belong to it. -/
theorem endsLine_of_step {r r' : StmtReading} {t : Token} {s : Option Stmt} (hr : r ≠ .start)
    (hs : r.whole? = some s) (h : r.step t = some r') : t.endsLine = false := by
  cases r with
  | start => exact absurd rfl hr
  | expr p e =>
    have hvalue : p ≠ .condition ∧ ∃ v, e.value? = some v := by
      cases p with
      | condition => cases hs
      | _ =>
        obtain ⟨v, hv, -⟩ := Option.map_eq_some_iff.mp hs
        exact ⟨nofun, v, hv⟩
    obtain ⟨hp, v, hv⟩ := hvalue
    simp only [step] at h
    split at h
    · rename_i e' he
      exact ExprReading.endsLine_of_step hv he
    · simp [hp] at h
  | thenTarget c n =>
    simp only [step] at h
    split at h
    · rename_i hk
      cases t with
      | word w =>
        have hend : (Token.word "End").isKeyword "ELSE" = false := by decide +kernel
        simp only [Token.endsLine, decide_eq_false_iff_not]
        rintro rfl
        rw [hend] at hk
        cases hk
      | _ => cases hk
    · cases h
  | done s => cases h
  | _ => cases hs

theorem step_comment (r : StmtReading) (raw : String) : r.step (.comment raw) = none := by
  cases r with
  | expr p e =>
    simp only [step, ExprReading.step_comment]
    exact if_neg fun h => Bool.noConfusion h.2
  | _ => rfl

theorem step_ne_start {r r' : StmtReading} {t : Token} (hr : r.Regular) (h : r.step t = some r') :
    r' ≠ .start := by
  obtain ⟨g, hsigns, -⟩ := step_signs hr h
  rintro rfl
  simp [signs] at hsigns

end StmtReading

namespace Place

/-- A token that belongs to a statement is read inside its line. -/
theorem step_line {r : ParseTree.Routine} {l : Line} {reading reading' : StmtReading}
    {t : Placed Token} (h : reading.step t.item = some reading')
    (ht : reading = .start → t.item.endsLine = false) :
    (line r l reading).step t = some (line r l reading') := by
  simp only [step, h, Option.map_some, Option.or_eq_some_iff, Option.bind_eq_none_iff]
  refine .inr ⟨fun s hs => stepBody_eq_none.mpr ?_, trivial⟩
  by_cases hr : reading = .start
  · exact ht hr
  · exact StmtReading.endsLine_of_step hr hs h

end Place

/-! ### Comments -/

/-- A place after several comments. -/
def Place.comments (p : Place) (cs : List Comment) : Place :=
  cs.foldl (fun p c => p.comment c) p

namespace Place

theorem comments_outside (leading cs : List Comment) :
    (outside leading).comments cs = outside (leading ++ cs) := by
  induction cs generalizing leading with
  | nil => simp [comments]
  | cons c cs ih => simpa [comments, comment] using ih (leading ++ [c])

theorem comments_paramType (h : Heading) (held cs : List Comment) (n : String) (type : ValueType) :
    (paramType h held n type).comments cs = paramType h (held ++ cs) n type := by
  induction cs generalizing held with
  | nil => simp [comments]
  | cons c cs ih => simpa [comments, comment] using ih (held ++ [c])

theorem comments_line (r : ParseTree.Routine) (l : Line) (cs : List Comment)
    (reading : StmtReading) : (line r l reading).comments cs
      = line r { l with comments := l.comments ++ cs } reading := by
  induction cs generalizing l with
  | nil => simp [comments]
  | cons c cs ih => simpa [comments, comment] using ih { l with comments := l.comments ++ [c] }

end Place

namespace State

/-! ### Rows -/

variable (rs : List ParseTree.Routine)

theorem read_append (s : State) (us vs : List Token) :
    s.read (us ++ vs) = (s.read us).bind (·.read vs) :=
  List.foldlM_append

/-- A token that fits at a place is read there. -/
theorem read_cons {p p' : Place} {t : Token} (ts : List Token) (hc : t.isComment = false)
    (h : p.step ⟨0, t⟩ = some p') : read ⟨rs, p⟩ (t :: ts) = read ⟨rs, p'⟩ ts := by
  have hstep : step ⟨rs, p⟩ ⟨0, t⟩ = some ⟨rs, p'⟩ := by
    rw [step_eq_map hc, h]
    · rfl
    · rintro r leading hp
      simp only at hp
      subst hp
      cases h
  rw [read, List.foldlM_cons, hstep]
  rfl

theorem read_commentTokens (p : Place) (cs : List Comment) :
    read ⟨rs, p⟩ (commentTokens cs) = some ⟨rs, p.comments (cs.map Placed.unplaced)⟩ := by
  induction cs generalizing p with
  | nil => rfl
  | cons c cs ih => exact ih (p.comment c.unplaced)

/-- The tokens of a statement are read inside its line. -/
theorem read_statement (r : ParseTree.Routine) (l : Line) {reading reading' : StmtReading}
    {ts : List Token} (hreading : reading.Regular)
    (hfirst : reading = .start → ∀ t ∈ ts.head?, t.endsLine = false)
    (h : ts.foldlM StmtReading.step reading = some reading') :
    read ⟨rs, .line r l reading⟩ ts = some ⟨rs, .line r l reading'⟩ := by
  induction ts generalizing reading with
  | nil =>
    cases h
    rfl
  | cons t ts ih =>
    obtain ⟨next, hstep, h⟩ := Option.bind_eq_some_iff.mp h
    have ht : reading = .start → t.endsLine = false := fun hr => hfirst hr t rfl
    have hc : t.isComment = false := by
      cases t with
      | comment raw => simp [StmtReading.step_comment] at hstep
      | _ => rfl
    rw [read_cons rs ts hc (Place.step_line hstep ht)]
    -- behind its first token a reading is at no start again
    exact ih (hreading.step hstep ht)
      (fun hnext => absurd hnext (StmtReading.step_ne_start hreading hstep)) h

end State

/-! ### Lines -/

/-- Whether a place is inside a function and a line of it may end there; `r` is the function with
this line. -/
def Place.Ready (r : ParseTree.Routine) : Place → Prop
  | .body q => q = r
  | .line q l reading => ∃ s, reading.whole? = some s ∧ r = addLine q { l with statement := s }
  | _ => False

theorem Place.Ready.step {p : Place} {r : ParseTree.Routine} {t : Placed Token} {q : Place}
    (hp : p.Ready r) (h : stepBody r t = some q) : p.step t = some q := by
  cases p with
  | body r' =>
    cases hp
    exact h
  | line r' l reading =>
    obtain ⟨s, hs, rfl⟩ := hp
    simp [Place.step, hs, h]
  | _ => cases hp

end Grammar

namespace ParseTree

/-- The first token of a regular statement does not end its line. -/
theorem Stmt.Regular.endsLine_head {s : Stmt} (hs : s.Regular) {ts : List Token}
    (h : List.Forall₂ Sign.Fits s.signs ts) : ∀ t ∈ ts.head?, t.endsLine = false := by
  -- a keyword at the start is none of the words that end a line
  have hkeyword : ∀ k gs, s.signs = .keyword k :: gs → k ≠ "END" →
      ∀ t ∈ ts.head?, t.endsLine = false := by
    intro k gs hsigns hk t ht
    rw [hsigns] at h
    obtain ⟨u, us, hu, -, rfl⟩ := List.forall₂_cons_left_iff.mp h
    obtain rfl : u = t := by simpa using ht
    cases u with
    | word w =>
      have hend : "End".toUpper = "END" := by decide +kernel
      simp only [Token.endsLine, decide_eq_false_iff_not]
      rintro rfl
      exact hk (by simpa [Token.isKeyword, hend, eq_comm] using hu)
    | _ => cases hu
  cases s with
  | evaluate e =>
    rw [show ts = e.tokens from Sign.forall₂_map_token.mp h]
    intro t ht
    exact (Bool.or_eq_false_iff.mp (hs.evaluate e rfl t ht)).1
  | _ => exact hkeyword _ _ rfl (by decide)

end ParseTree

namespace Grammar

open ParseTree

namespace State

variable (rs : List ParseTree.Routine)

/-- A line is read where the line before it may end. -/
theorem read_line {p : Place} {r : ParseTree.Routine} {l : Line} {ts : List Token}
    (hp : p.Ready r) (hl : ∀ s ∈ l.statement, s.Regular)
    (h : List.Forall₂ Sign.Fits l.row ts) :
    ∃ q, read ⟨rs, p⟩ ts = some ⟨rs, q⟩ ∧ q.Ready (addLine r l.unplaced) := by
  obtain ⟨us, vs, rfl, hus, hvs⟩ := Sign.forall₂_append.mp h
  obtain ⟨t, ws, rfl, hws, rfl⟩ := List.forall₂_cons_left_iff.mp hus
  rw [Sign.forall₂_map_token] at hvs
  have hopen : Place.stepBody r ⟨0, .number l.number⟩
      = some (.line r ⟨l.number, 0, none, []⟩ .start) := rfl
  -- behind the number either nothing stands, or a statement that is read to its end
  obtain ⟨reading, hread, hwhole⟩ : ∃ reading : StmtReading,
      read ⟨rs, .line r ⟨l.number, 0, none, []⟩ .start⟩ ws
        = some ⟨rs, .line r ⟨l.number, 0, none, []⟩ reading⟩ ∧
      reading.whole? = some l.statement := by
    cases hstatement : l.statement with
    | none =>
      rw [hstatement] at hws
      cases hws
      exact ⟨.start, rfl, rfl⟩
    | some s =>
      rw [hstatement] at hws
      have hs := hl s hstatement
      obtain ⟨reading, hfold, hwhole⟩ := StmtReading.foldlM_signs hs hws
      exact ⟨reading, read_statement rs r _ trivial (fun _ => hs.endsLine_head hws) hfold, hwhole⟩
  -- the comments do not touch the reading, which is whole, so that the line may end here
  refine ⟨.line r ⟨l.number, 0, none, l.comments.map Placed.unplaced⟩ reading, ?_,
    l.statement, hwhole, rfl⟩
  rw [List.cons_append, read_cons rs _ rfl (hp.step hopen), read_append, hread, hvs,
    Option.bind_some, read_commentTokens, Place.comments_line]
  rfl

theorem read_lines {p : Place} {r : ParseTree.Routine} {ls : List Line} {ts : List Token}
    (hp : p.Ready r) (hls : ∀ l ∈ ls, ∀ s ∈ l.statement, s.Regular)
    (h : List.Forall₂ Sign.Fits (ls.flatMap Line.row) ts) :
    ∃ q, read ⟨rs, p⟩ ts = some ⟨rs, q⟩ ∧
      q.Ready { r with lines := r.lines ++ ls.map Line.unplaced } := by
  induction ls generalizing p r ts with
  | nil =>
    cases h
    exact ⟨p, rfl, by simpa using hp⟩
  | cons l ls ih =>
    obtain ⟨us, vs, rfl, hus, hvs⟩ := Sign.forall₂_append.mp h
    obtain ⟨q, hread, hq⟩ := read_line rs hp (hls l List.mem_cons_self) hus
    obtain ⟨q', hread', hq'⟩ := ih hq (fun l hl => hls l (List.mem_cons_of_mem _ hl)) hvs
    refine ⟨q', ?_, by simpa [addLine] using hq'⟩
    rw [read_append, hread]
    exact hread'

/-! ### Headings -/

/-- A parameter and its comments are read where the name of a parameter fits. -/
theorem read_param {h : Heading} {q : Place} {p : ParseTree.Param} (hp : p.type ≠ .unknown)
    (hq : ∀ n, q.step ⟨0, .word n⟩ = some (.paramName h [] n)) :
    read ⟨rs, q⟩ p.tokens
      = some ⟨rs, .paramType h (p.comments.map Placed.unplaced) p.name p.type⟩ := by
  have htype : (Place.paramName h [] p.name).step ⟨0, .word p.type.keyword⟩
      = some (.paramType h [] p.name p.type) := by
    simp [Place.step, ValueType.ofKeyword?_eq_some.mpr ⟨rfl, hp⟩]
  rw [ParseTree.Param.tokens, List.cons_append, List.cons_append, List.nil_append,
    read_cons rs _ rfl (hq _), read_cons rs _ rfl htype, read_commentTokens,
    Place.comments_paramType]
  rfl

/-- Parameters are read to the parenthesis that closes their list. -/
theorem read_params {h : Heading} {q : Place} {ps : List ParseTree.Param} (hne : ps ≠ [])
    (hps : ∀ p ∈ ps, p.type ≠ .unknown)
    (hq : ∀ n, q.step ⟨0, .word n⟩ = some (.paramName h [] n)) :
    read ⟨rs, q⟩ (separated Token.comma (ps.map ParseTree.Param.tokens) ++ [Token.rparen])
      = some ⟨rs, .signature { h with params := h.params ++ ps.map ParseTree.Param.unplaced }⟩ := by
  induction ps generalizing h q with
  | nil => exact absurd rfl hne
  | cons p rest ih =>
    have hread := read_param rs (hps p List.mem_cons_self) hq
    rcases rest with _ | ⟨p', rest⟩
    · rw [List.map_singleton, separated_singleton, read_append, hread]
      rfl
    · have hrest := ih (h := h.addParam p.unplaced) (q := .paramComma (h.addParam p.unplaced) [])
        nofun (fun p hp => hps p (List.mem_cons_of_mem _ hp)) fun n => rfl
      -- behind the comma the rest is read as a list of its own, under the longer heading
      have hcomma : (Place.paramType h (p.comments.map Placed.unplaced) p.name p.type).step
          ⟨0, .comma⟩ = some (.paramComma (h.addParam p.unplaced) []) := rfl
      rw [List.map_cons, List.map_cons, separated_cons_cons, List.append_assoc, read_append,
        hread, Option.bind_some, List.cons_append, read_cons rs _ rfl hcomma]
      simpa [Heading.addParam] using hrest

/-- The first line of a function and its comments are read between functions. -/
theorem read_heading {r : ParseTree.Routine} (hr : r.Regular) :
    read ⟨rs, .outside []⟩ r.headTokens
      = some ⟨rs, .body { r.unplaced with lines := [] }⟩ := by
  have hcs := read_commentTokens rs (.outside []) r.comments
  rw [Place.comments_outside, List.nil_append] at hcs
  generalize hcs' : r.comments.map Placed.unplaced = cs at hcs
  have hopen : (Place.outside cs).step ⟨0, .word "Function"⟩ = some (.opened cs) := rfl
  have hname : (Place.opened cs).step ⟨0, .word r.name⟩ = some (.named ⟨r.name, 0, [], cs⟩) := rfl
  have hparen : (Place.named ⟨r.name, 0, [], cs⟩).step ⟨0, .lparen⟩
      = some (.params ⟨r.name, 0, [], cs⟩ []) := rfl
  -- a list without parameters is closed where the first could stand
  have hparams : read ⟨rs, .params ⟨r.name, 0, [], cs⟩ []⟩
      (separated Token.comma (r.params.map ParseTree.Param.tokens) ++ [Token.rparen])
        = some ⟨rs, .signature ⟨r.name, 0, r.params.map ParseTree.Param.unplaced, cs⟩⟩ := by
    by_cases hne : r.params = []
    · rw [hne]
      simp [read, step, Place.step, Heading.addComments]
    · simpa using read_params rs hne hr.params
        (q := .params ⟨r.name, 0, [], cs⟩ []) fun n => rfl
  have htype : ∀ h : Heading, (Place.signature h).step ⟨0, .word r.returnType.keyword⟩
      = some (.body (h.routine r.returnType)) := by
    intro h
    simp [Place.step, ValueType.ofKeyword?_eq_some.mpr ⟨rfl, hr.returnType⟩]
  have hrow : r.headTokens = commentTokens r.comments ++
      .word "Function" :: .word r.name :: .lparen ::
        ((separated Token.comma (r.params.map ParseTree.Param.tokens) ++ [Token.rparen]) ++
          [.word r.returnType.keyword]) := by
    simp [ParseTree.Routine.headTokens]
  rw [hrow, read_append, hcs, Option.bind_some, read_cons rs _ rfl hopen,
    read_cons rs _ rfl hname, read_cons rs _ rfl hparen, read_append, hparams,
    Option.bind_some, read_cons rs _ rfl (htype _), ← hcs']
  rfl

/-! ### Functions and texts -/

/-- A regular function is read as it is written. -/
theorem read_routine {r : ParseTree.Routine} (hr : r.Regular) {ts : List Token}
    (h : List.Forall₂ Sign.Fits r.row ts) :
    read ⟨rs, .outside []⟩ ts = some ⟨rs ++ [r.unplaced], .outside []⟩ := by
  obtain ⟨us, ends, rfl, hus, hends⟩ := Sign.forall₂_append.mp h
  obtain ⟨head, body, rfl, hhead, hbody⟩ := Sign.forall₂_append.mp hus
  rw [Sign.forall₂_map_token] at hhead
  have hends' : ends = [.word "End", .word "Function"] :=
    Sign.forall₂_map_token.mp
      (show List.Forall₂ Sign.Fits ([.word "End", .word "Function"].map .token) ends from hends)
  have hready : (Place.body { r.unplaced with lines := [] }).Ready { r.unplaced with lines := [] } :=
    rfl
  obtain ⟨q, hread, hq⟩ := read_lines rs hready hr.lines hbody
  have hend : Place.stepBody { r.unplaced with lines := [] ++ r.lines.map Line.unplaced }
      ⟨0, .word "End"⟩ = some (.ended r.unplaced []) := rfl
  rw [hhead, hends', read_append, read_append, read_heading rs hr, Option.bind_some, hread,
    Option.bind_some, read_cons rs _ rfl (hq.step hend)]
  rfl

theorem read_routines {routines : List ParseTree.Routine} (hr : ∀ r ∈ routines, r.Regular)
    {ts : List Token} (h : List.Forall₂ Sign.Fits (routines.flatMap ParseTree.Routine.row) ts) :
    read ⟨rs, .outside []⟩ ts
      = some ⟨rs ++ routines.map ParseTree.Routine.unplaced, .outside []⟩ := by
  induction routines generalizing rs ts with
  | nil =>
    cases h
    simp [read]
  | cons r routines ih =>
    obtain ⟨us, vs, rfl, hus, hvs⟩ := Sign.forall₂_append.mp h
    have hrest := ih (rs ++ [r.unplaced]) (fun r hr' => hr r (List.mem_cons_of_mem _ hr')) hvs
    rw [read_append, read_routine rs (hr r List.mem_cons_self) hus]
    simpa using hrest

/-- The row of a regular tree is read as this tree, up to offsets. -/
theorem read_row {t : ParseTree} (ht : t.Regular) {ts : List Token}
    (h : List.Forall₂ Sign.Fits t.row ts) :
    start.read ts = some ⟨t.unplaced.routines, .outside t.unplaced.trailing⟩ := by
  obtain ⟨us, vs, rfl, hus, hvs⟩ := Sign.forall₂_append.mp h
  rw [Sign.forall₂_map_token] at hvs
  rw [read_append, start, read_routines [] ht hus, Option.bind_some, hvs, read_commentTokens,
    Place.comments_outside]
  rfl

end State

end Grammar

open Grammar

/-- A text whose tokens are the row of a regular tree has this tree, up to offsets. -/
theorem parse_of_row {source : List Char} {t : ParseTree} (ht : t.Regular)
    (hfault : (lex source).fault = none)
    (h : List.Forall₂ Sign.Fits t.row ((lex source).tokens.map Placed.item)) :
    ∃ t', parse source = .ok t' ∧ t'.unplaced = t.unplaced :=
  exists_parse_of_read hfault (State.read_row ht h) rfl

end ContractBasic
