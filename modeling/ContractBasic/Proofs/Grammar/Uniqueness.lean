/-
Rows of tokens that two trees share.

The parser reads a statement as far as it goes, so a row of tokens has at most one regular statement
at its start.  A tree whose bare expressions may start like something else has the row of another
tree at times; but if the two hold the same statements, then it was regular.

* `Stmt.Shaped` — regular statements, and bare expressions that start like something else
* `Stmt.Regular.unique` — a row has one regular statement at its start
* `Line.regular_of_signs` — lines with the row and the statements of regular lines are regular
* `ParseTree.regular_of_signs` — the same for whole trees
-/
import ContractBasic.Program.Lines
import ContractBasic.Program.OfTree
import ContractBasic.Proofs.Grammar.Completeness

namespace ContractBasic

open Grammar

namespace ParseTree

/-! ### Statements -/

/-- Whether a statement is regular but for the first token of a bare expression. -/
structure Stmt.Shaped (s : Stmt) : Prop where
  canonical : ∀ e ∈ s.expression?, e.Canonical
  dim : ∀ names type, s = .dim names type → names ≠ [] ∧ type ≠ .unknown

/-- The token that makes a bare expression read as something else, if there is one. -/
def Stmt.claim? : Stmt → Option Token
  | .evaluate e => e.tokens.head?.filter Token.claimsLine
  | _ => none

theorem Stmt.Shaped.regular {s : Stmt} (hs : s.Shaped) (hclaim : s.claim? = none) :
    s.Regular := by
  refine ⟨hs.canonical, hs.dim, ?_⟩
  rintro e rfl t ht
  rw [claim?, Option.filter_eq_none_iff] at hclaim
  simpa using hclaim t ht

theorem Stmt.Regular.claim? {s : Stmt} (hs : s.Regular) : s.claim? = none := by
  cases s with
  | evaluate e =>
    rw [Stmt.claim?, Option.filter_eq_none_iff]
    intro t ht
    simp [hs.evaluate e rfl t ht]
  | _ => rfl

theorem Stmt.Regular.shaped {s : Stmt} (hs : s.Regular) : s.Shaped := ⟨hs.canonical, hs.dim⟩

/-- A statement that is not regular is a bare expression with a claim. -/
theorem Stmt.claim?_eq_some {s : Stmt} {t : Token} (h : s.claim? = some t) :
    ∃ e us, s = .evaluate e ∧ e.tokens = t :: us ∧ t.claimsLine = true := by
  cases s with
  | evaluate e =>
    obtain ⟨hhead, hclaim⟩ := Option.filter_eq_some_iff.mp h
    obtain ⟨us, hus⟩ := List.head?_eq_some_iff.mp hhead
    exact ⟨e, us, rfl, hus, hclaim⟩
  | _ => cases h

/-- Whether a row stands behind a whole line: it goes on with a line number or the word `End`. -/
def EndsLine (ts : List Token) : Prop := ∀ t ∈ ts.head?, t.endsLine = true

/-- Where a regular statement is over, nothing that ends a line goes on with it. -/
theorem Stmt.Regular.eq_nil {s : Stmt} (hs : s.Regular) {us ws : List Token}
    (hus : List.Forall₂ Sign.Fits s.signs us) {r : StmtReading}
    (h : (us ++ ws).foldlM StmtReading.step .start = some r) (hws : EndsLine ws) : ws = [] := by
  obtain ⟨reading, hread, hwhole⟩ := StmtReading.foldlM_signs hs hus
  have hstart : reading ≠ .start := by
    rintro rfl
    cases hwhole
  rw [List.foldlM_append, hread, Option.bind_eq_bind, Option.bind_some] at h
  cases ws with
  | nil => rfl
  | cons w ws =>
    obtain ⟨next, hstep, -⟩ := Option.bind_eq_some_iff.mp h
    -- a whole statement goes on with nothing that ends a line, but the next token does end one
    have hends := StmtReading.endsLine_of_step hstart hwhole hstep
    rw [hws w rfl] at hends
    cases hends

/-- **A row has one regular statement at its start.** -/
theorem Stmt.Regular.unique {s s' : Stmt} (hs : s.Regular) (hs' : s'.Regular)
    {us us' vs vs' : List Token} (hus : List.Forall₂ Sign.Fits s.signs us)
    (hus' : List.Forall₂ Sign.Fits s'.signs us') (hvs : EndsLine vs) (hvs' : EndsLine vs')
    (h : us ++ vs = us' ++ vs') : s = s' ∧ vs = vs' := by
  obtain ⟨r, hread, hwhole⟩ := StmtReading.foldlM_signs hs hus
  obtain ⟨r', hread', hwhole'⟩ := StmtReading.foldlM_signs hs' hus'
  -- one of the two rows is a part of the other, and the shorter statement cannot go on
  have hcut : us = us' := by
    rcases List.append_eq_append_iff.mp h with ⟨ws, rfl, rfl⟩ | ⟨ws, rfl, rfl⟩
    · have hws : EndsLine ws := by
        intro t ht
        exact hvs t (by rw [List.head?_append, ht]; rfl)
      rw [hs.eq_nil hus hread' hws, List.append_nil]
    · have hws : EndsLine ws := by
        intro t ht
        exact hvs' t (by rw [List.head?_append, ht]; rfl)
      rw [hs'.eq_nil hus' hread hws, List.append_nil]
  subst hcut
  obtain rfl : r = r' := Option.some.inj (hread.symm.trans hread')
  rw [hwhole] at hwhole'
  exact ⟨Option.some.inj (Option.some.inj hwhole'), List.append_cancel_left h⟩

theorem Stmt.signs_ne_nil (s : Stmt) : s.signs ≠ [] := by
  cases s with
  | evaluate e =>
    obtain ⟨t, ts, h, -⟩ := e.tokens_eq_cons
    simp [signs, Expr.signs, h]
  | _ => exact List.cons_ne_nil _ _

theorem Stmt.Regular.exists_cons {s : Stmt} (hs : s.Regular) {us : List Token}
    (hus : List.Forall₂ Sign.Fits s.signs us) :
    ∃ u vs, us = u :: vs ∧ u.endsLine = false := by
  cases us with
  | nil => exact absurd (List.forall₂_nil_right_iff.mp hus) s.signs_ne_nil
  | cons u vs => exact ⟨u, vs, rfl, hs.endsLine_head hus u rfl⟩

/-- No statement starts with an operator between two operands. -/
theorem Stmt.Regular.head_ne_operator {s : Stmt} (hs : s.Regular) {o : Operator}
    (ho : o.isUnary = false) {us : List Token} :
    ¬ List.Forall₂ Sign.Fits s.signs (.operator o :: us) := by
  intro h
  obtain ⟨r, hread, -⟩ := StmtReading.foldlM_signs hs h
  obtain ⟨r', hstep, -⟩ := Option.bind_eq_some_iff.mp hread
  -- only `!` can start an expression, and it is the unary one
  have hnone : StmtReading.step .start (.operator o) = none := by
    rcases o with c | a | b
    · rfl
    · rfl
    · cases b with
      | not => cases ho
      | _ => rfl
  rw [hnone] at hstep
  cases hstep

/-- A chain that starts with a number goes on with an operator between two operands. -/
theorem Expr.Canonical.tokens_number {e : Expr} (he : e.Canonical) {n : UInt64} {ts : List Token}
    (h : e.tokens = .number n :: ts) :
    ts = [] ∨ ∃ o us, ts = .operator o :: us ∧ o.isUnary = false := by
  induction he generalizing ts with
  | number m =>
    cases h
    exact .inl rfl
  | @binary o l r ho hl hr hcl hcr ihl ihr =>
    -- the number opens the left operand, and the operator stands behind that at the latest
    obtain ⟨t, us, hus, -⟩ := l.tokens_eq_cons
    rw [tokens, hus] at h
    obtain ⟨rfl, rfl⟩ := List.cons.inj h
    refine .inr ?_
    rcases ihl hus with rfl | ⟨o', vs, rfl, ho'⟩
    · exact ⟨o, r.tokens, rfl, ho⟩
    · exact ⟨o', _, rfl, ho'⟩
  | _ => cases h

/-! ### Lines -/

/-- The statements of the program that a line holds, comments apart. -/
def Line.held (l : Line) : List Statement :=
  ((l.statement.map StatementKind.ofTree).getD []).map (⟨l.number, ·⟩)

/-- The signs of the statement of a line. -/
def Line.rest (l : Line) : List Sign := (l.statement.map Stmt.signs).getD []

theorem Line.signs_eq (l : Line) : l.signs = .number l.number :: l.rest := rfl

/-- The lines that hold a statement. -/
def Line.taken (ls : List Line) : List UInt64 :=
  (ls.filter fun l => l.statement.isSome).map (·.number)

/-- The row of the lines of a function, from some line on. -/
def Line.rows (ls : List Line) (after : List Sign) : List Sign :=
  ls.flatMap Line.signs ++ .word "End" :: after

theorem Line.rows_cons (l : Line) (ls : List Line) (after : List Sign) :
    rows (l :: ls) after = .number l.number :: (l.rest ++ rows ls after) := by
  simp [rows, signs_eq]

/-- The rest of a function goes on with a line number or the word `End`. -/
theorem Line.endsLine_rows {ls : List Line} {after : List Sign} {ts : List Token}
    (h : List.Forall₂ Sign.Fits (rows ls after) ts) : EndsLine ts := by
  cases ls with
  | nil =>
    obtain ⟨t, us, ht, -, rfl⟩ := List.forall₂_cons_left_iff.mp h
    rintro _ ⟨⟩
    rw [show t = .word "End" from ht]
    rfl
  | cons l ls =>
    rw [rows_cons] at h
    obtain ⟨t, us, ht, -, rfl⟩ := List.forall₂_cons_left_iff.mp h
    rintro _ ⟨⟩
    rw [show t = .number l.number from ht]
    rfl

theorem Line.held_of_none {l : Line} (h : l.statement = none) : l.held = [] := by
  simp [held, h]

theorem Line.line_of_mem_held {l : Line} {s : Statement} (h : s ∈ l.held) : s.line = l.number := by
  obtain ⟨kind, -, rfl⟩ := List.mem_map.mp h
  rfl

theorem Line.held_ne_nil {l : Line} {s : Stmt} (hl : l.statement = some s) (hs : s.Shaped) :
    l.held ≠ [] := by
  cases s with
  | dim names type => simpa [held, hl, StatementKind.ofTree] using (hs.dim names type rfl).1
  | _ => simp [held, hl, StatementKind.ofTree]

section Lines

variable {after after' : List Sign} {ts : List Token} {ls ls' : List Line}

/-- A regular statement behind the number of a line does not start with the end of the line. -/
theorem Line.not_endsLine {l : Line} {s : Stmt} (hl : l.statement = some s) (hs : s.Regular)
    (h : List.Forall₂ Sign.Fits (l.rest ++ rows ls after) ts) : ¬ EndsLine ts := by
  rw [rest, hl] at h
  obtain ⟨us, vs, rfl, hus, -⟩ := Sign.forall₂_append.mp h
  obtain ⟨u, us, rfl, hu⟩ := hs.exists_cons hus
  intro hends
  rw [hends u rfl] at hu
  cases hu

/-- Behind a line number, other lines with the same row go on with the row of the next line, or hold
nothing: a claim that is read as a line number leaves an empty line. -/
theorem Line.held_behind {l : Line} (hl : ∀ s ∈ l.statement, s.Shaped)
    (hls' : ∀ m ∈ ls', ∀ s ∈ m.statement, s.Regular)
    (h : List.Forall₂ Sign.Fits (l.rest ++ rows ls after) ts)
    (h' : List.Forall₂ Sign.Fits (rows ls' after') ts) :
    ls'.flatMap held = [] ∨ ∃ us ms, List.Forall₂ Sign.Fits (rows ls after) us ∧
      List.Forall₂ Sign.Fits (rows ms after') us ∧ (∀ m ∈ ms, ∀ s ∈ m.statement, s.Regular) ∧
      ms.flatMap held = ls'.flatMap held := by
  cases hstatement : l.statement with
  | none =>
    rw [rest, hstatement] at h
    -- an empty line leaves the row as it is
    exact .inr ⟨ts, ls', h, h', hls', rfl⟩
  | some s =>
    have hs := hl s hstatement
    cases hclaim : s.claim? with
    | none => exact absurd (endsLine_rows h') (not_endsLine hstatement (hs.regular hclaim) h)
    | some t =>
      obtain ⟨e, us, rfl, he, -⟩ := Stmt.claim?_eq_some hclaim
      rw [rest, hstatement] at h
      obtain ⟨ws, vs, rfl, hws, hvs⟩ := Sign.forall₂_append.mp h
      obtain rfl : ws = t :: us := by rw [← he]; exact Sign.forall₂_map_token.mp hws
      cases ls' with
      | nil => exact .inl rfl
      | cons m ms =>
        -- the claim is read as the number of the next of the other lines, so it is a number itself
        rw [rows_cons, List.cons_append] at h'
        obtain ⟨hnumber, hrest⟩ := List.forall₂_cons.mp h'
        obtain rfl : t = .number m.number := hnumber
        have hms : ∀ n ∈ ms, ∀ s ∈ n.statement, s.Regular :=
          fun n hn => hls' n (List.mem_cons_of_mem _ hn)
        -- hence the expression is that number alone, or goes on with an operator
        have hchain := (hs.canonical e rfl).tokens_number he
        cases hm : m.statement with
        | none =>
          rw [rest, hm] at hrest
          rcases hchain with rfl | ⟨o, us, rfl, -⟩
          · -- a bare number over there is an empty line here
            refine .inr ⟨vs, ms, hvs, hrest, hms, ?_⟩
            rw [List.flatMap_cons, held_of_none hm, List.nil_append]
          · cases endsLine_rows hrest (.operator o) rfl
        | some s =>
          have hregular := hls' m List.mem_cons_self s hm
          rcases hchain with rfl | ⟨o, us, rfl, ho⟩
          · -- the number is all of the expression, and no statement starts where a line ends
            exact absurd (endsLine_rows hvs) (not_endsLine hm hregular hrest)
          · -- behind the number the other statement would start with the operator
            rw [rest, hm] at hrest
            obtain ⟨ws, ws', hsplit, hws, -⟩ := Sign.forall₂_append.mp hrest
            obtain ⟨w, ws, rfl, -⟩ := hregular.exists_cons hws
            obtain ⟨rfl, -⟩ := List.cons.inj hsplit
            exact absurd hws (hregular.head_ne_operator ho)

/-- The first statement that lines hold stands on a line that other lines with the same row take. -/
theorem Line.head_held_mem_taken (hls : ∀ l ∈ ls, ∀ s ∈ l.statement, s.Shaped)
    (hls' : ∀ m ∈ ls', ∀ s ∈ m.statement, s.Regular)
    (h : List.Forall₂ Sign.Fits (rows ls after) ts)
    (h' : List.Forall₂ Sign.Fits (rows ls' after') ts) :
    ∀ s ∈ (ls'.flatMap held).head?, s.line ∈ taken ls := by
  -- by induction on the lines; the row and the other lines vary, since a claim that is read as a line
  -- number skips one of the others
  induction ls generalizing ts ls' with
  | nil =>
    cases ls' with
    | nil => nofun
    | cons m ms =>
      rw [rows_cons] at h'
      obtain ⟨t, us, ht, -, rfl⟩ := List.forall₂_cons_left_iff.mp h'
      obtain ⟨hend, -⟩ := List.forall₂_cons.mp h
      cases ht.symm.trans hend
  | cons l ls ih =>
    cases ls' with
    | nil => nofun
    | cons m ms =>
      rw [rows_cons] at h h'
      obtain ⟨t, us, ht, hus, rfl⟩ := List.forall₂_cons_left_iff.mp h
      obtain ⟨ht', hus'⟩ := List.forall₂_cons.mp h'
      have hnumber : l.number = m.number := Token.number.inj (ht.symm.trans ht')
      have hl := hls l List.mem_cons_self
      have hm := hls' m List.mem_cons_self
      have hls₁ : ∀ l ∈ ls, ∀ s ∈ l.statement, s.Shaped :=
        fun n hn => hls n (List.mem_cons_of_mem _ hn)
      have hms : ∀ n ∈ ms, ∀ s ∈ n.statement, s.Regular :=
        fun n hn => hls' n (List.mem_cons_of_mem _ hn)
      cases hstatement : m.statement with
      | none =>
        rw [rest, hstatement] at hus'
        rw [List.flatMap_cons, held_of_none hstatement, List.nil_append]
        -- the other line is empty, so what is held first is held behind it
        rcases held_behind hl hms hus hus' with hnil | ⟨vs, ns, hvs, hvs', hns, hheld⟩
        · rw [hnil]
          nofun
        · intro s hs
          have hmem := ih hls₁ hns hvs hvs' s (hheld ▸ hs)
          rw [taken, List.filter_cons]
          split
          · exact List.mem_cons_of_mem _ hmem
          · exact hmem
      | some s' =>
        have hregular := hm s' hstatement
        -- a regular statement behind the number shows that the line is not empty here either
        have htaken : l.number ∈ taken (l :: ls) := by
          cases hnone : l.statement with
          | none =>
            rw [rest, hnone] at hus
            exact absurd (endsLine_rows hus) (not_endsLine hstatement hregular hus')
          | some s => simp [taken, hnone]
        intro s hs
        -- and the other line holds what is held first, under the same number
        obtain ⟨x, xs, hx⟩ := List.exists_cons_of_ne_nil (held_ne_nil hstatement hregular.shaped)
        rw [List.flatMap_cons, hx] at hs
        obtain rfl : x = s := by simpa using hs
        rw [line_of_mem_held (hx ▸ List.mem_cons_self), ← hnumber]
        exact htaken

/-- Behind a line number, the first statement that other lines with the same row hold stands on a line
that is taken later. -/
theorem Line.head_held_behind {l : Line} (hl : ∀ s ∈ l.statement, s.Shaped)
    (hls : ∀ l ∈ ls, ∀ s ∈ l.statement, s.Shaped)
    (hls' : ∀ m ∈ ls', ∀ s ∈ m.statement, s.Regular)
    (h : List.Forall₂ Sign.Fits (l.rest ++ rows ls after) ts)
    (h' : List.Forall₂ Sign.Fits (rows ls' after') ts) :
    ∀ s ∈ (ls'.flatMap held).head?, s.line ∈ taken ls := by
  rcases held_behind hl hls' h h' with hnil | ⟨us, ms, hus, hus', hms, hsame⟩
  · rw [hnil]
    nofun
  · rw [← hsame]
    exact head_held_mem_taken hls hms hus hus'

/-- A statement that starts like something else shares its row with no regular statement where lines
that hold the same start with the two: both would be bare expressions. -/
theorem Line.claim?_eq_none {l m : Line} {s s' : Stmt} (hl : l.statement = some s)
    (hm : m.statement = some s') (hs' : s'.Regular) {later later' : List Statement}
    (hheld : m.held ++ later' = l.held ++ later) {us us' vs vs' : List Token}
    (hus : List.Forall₂ Sign.Fits s.signs us) (hus' : List.Forall₂ Sign.Fits s'.signs us')
    (hsplit : us ++ vs = us' ++ vs') : s.claim? = none := by
  cases hclaim : s.claim? with
  | none => rfl
  | some c =>
    obtain ⟨e, cs, rfl, he, hc⟩ := Stmt.claim?_eq_some hclaim
    obtain ⟨e', rfl⟩ : ∃ e', s' = .evaluate e' := by
      cases s' with
      | evaluate e' => exact ⟨e', rfl⟩
      | dim names type =>
        obtain ⟨n, names, rfl⟩ := List.exists_cons_of_ne_nil (hs'.dim names type rfl).1
        simp [held, hl, hm, StatementKind.ofTree] at hheld
      | _ => simp [held, hl, hm, StatementKind.ofTree] at hheld
    -- the two expressions start with one token, which claims nothing in the regular one
    obtain ⟨c', cs', he', -⟩ := e'.tokens_eq_cons
    obtain rfl : us = c :: cs := by rw [← he]; exact Sign.forall₂_map_token.mp hus
    obtain rfl : us' = c' :: cs' := by rw [← he']; exact Sign.forall₂_map_token.mp hus'
    obtain ⟨rfl, -⟩ := List.cons.inj hsplit
    rw [hs'.evaluate e' rfl c (by rw [he']; rfl)] at hc
    cases hc

/-- **Lines with the row and the statements of regular lines are regular.** -/
theorem Line.regular_of_rows (hls : ∀ l ∈ ls, ∀ s ∈ l.statement, s.Shaped)
    (hls' : ∀ m ∈ ls', ∀ s ∈ m.statement, s.Regular) (hdistinct : (taken ls).Nodup)
    (hheld : ls'.flatMap held = ls.flatMap held)
    (h : List.Forall₂ Sign.Fits (rows ls after) ts)
    (h' : List.Forall₂ Sign.Fits (rows ls' after') ts) :
    (∀ l ∈ ls, ∀ s ∈ l.statement, s.Regular) ∧
      ∃ us, List.Forall₂ Sign.Fits after us ∧ List.Forall₂ Sign.Fits after' us := by
  -- by induction on the lines: both rows start with one number, and the lines behind it fit together
  induction ls generalizing ts ls' with
  | nil =>
    obtain ⟨t, us, ht, hus, rfl⟩ := List.forall₂_cons_left_iff.mp h
    cases ls' with
    | nil => exact ⟨nofun, us, hus, (List.forall₂_cons.mp h').2⟩
    | cons m ms =>
      rw [rows_cons] at h'
      cases ht.symm.trans (List.forall₂_cons.mp h').1
  | cons l ls ih =>
    rw [rows_cons] at h
    obtain ⟨t, us, ht, hus, rfl⟩ := List.forall₂_cons_left_iff.mp h
    cases ls' with
    | nil => cases ht.symm.trans (List.forall₂_cons.mp h').1
    | cons m ms =>
      rw [rows_cons] at h'
      obtain ⟨ht', hus'⟩ := List.forall₂_cons.mp h'
      have hnumber : l.number = m.number := Token.number.inj (ht.symm.trans ht')
      obtain ⟨hl, hls⟩ := List.forall_mem_cons.mp hls
      obtain ⟨hm, hms⟩ := List.forall_mem_cons.mp hls'
      rw [List.flatMap_cons, List.flatMap_cons] at hheld
      cases hstatement : l.statement with
      | none =>
        cases hstatement' : m.statement with
        | none =>
          rw [rest, hstatement] at hus
          rw [rest, hstatement'] at hus'
          rw [held_of_none hstatement, held_of_none hstatement'] at hheld
          have hdistinct' : (taken ls).Nodup := by simpa [taken, hstatement] using hdistinct
          obtain ⟨hregular, hafter⟩ := ih hls hms hdistinct' hheld hus hus'
          refine ⟨List.forall_mem_cons.mpr ⟨?_, hregular⟩, hafter⟩
          rw [hstatement]
          nofun
        | some s' =>
          -- one line would be over where the statement of the other starts
          rw [rest, hstatement] at hus
          exact absurd (endsLine_rows hus) (not_endsLine hstatement' (hm s' hstatement') hus')
      | some s =>
        have hs := hl s hstatement
        have hcons : taken (l :: ls) = l.number :: taken ls := by simp [taken, hstatement]
        rw [hcons, List.nodup_cons] at hdistinct
        cases hstatement' : m.statement with
        | none =>
          -- the first statement of the other lines would stand on a later line
          rw [rest, hstatement'] at hus'
          rw [held_of_none hstatement', List.nil_append] at hheld
          obtain ⟨x, xs, hx⟩ := List.exists_cons_of_ne_nil (held_ne_nil hstatement hs)
          have hmem := head_held_behind hl hls hms hus hus' x (by rw [hheld, hx]; rfl)
          rw [line_of_mem_held (hx ▸ List.mem_cons_self)] at hmem
          exact absurd hmem hdistinct.1
        | some s' =>
          have hs' := hm s' hstatement'
          rw [rest, hstatement] at hus
          rw [rest, hstatement'] at hus'
          obtain ⟨as, bs, rfl, has, hbs⟩ := Sign.forall₂_append.mp hus
          obtain ⟨as', bs', hsplit, has', hbs'⟩ := Sign.forall₂_append.mp hus'
          -- two statements stand behind the number, so they are one, and the rest of the row is shared
          have hregular :=
            hs.regular (claim?_eq_none hstatement hstatement' hs' hheld has has' hsplit)
          obtain ⟨rfl, rfl⟩ :=
            hregular.unique hs' has has' (endsLine_rows hbs) (endsLine_rows hbs') hsplit
          have hsame : m.held = l.held := by rw [held, held, hstatement, hstatement', hnumber]
          rw [hsame] at hheld
          obtain ⟨hregulars, hafter⟩ :=
            ih hls hms hdistinct.2 (List.append_cancel_left hheld) hbs hbs'
          refine ⟨List.forall_mem_cons.mpr ⟨?_, hregulars⟩, hafter⟩
          rw [hstatement]
          rintro _ ⟨⟩
          exact hregular

end Lines

/-! ### Whole trees -/

/-- Whether the parts of a function are regular but for the first tokens of bare expressions. -/
structure Routine.Shaped (r : Routine) : Prop where
  params : ∀ p ∈ r.params, p.type ≠ .unknown
  returnType : r.returnType ≠ .unknown
  lines : ∀ l ∈ r.lines, ∀ s ∈ l.statement, s.Shaped

theorem Stmt.isExecutable_ofTree {s : Stmt} :
    ∀ k ∈ StatementKind.ofTree s, k.isExecutable = true := by
  cases s with
  | dim names type =>
    intro k hk
    obtain ⟨n, -, rfl⟩ := List.mem_map.mp hk
    rfl
  | _ => simp [StatementKind.ofTree, StatementKind.isExecutable]

/-- The statements of a line that take it up are what the line holds. -/
theorem Line.filter_ofLine (keep : Bool) (l : Line) :
    (Statement.ofLine keep l).filter (fun s => s.kind.isExecutable) = l.held := by
  have hcomments : ((cleanComments l.comments).map StatementKind.comment).filter
      StatementKind.isExecutable = [] := by
    rw [List.filter_eq_nil_iff]
    intro k hk
    obtain ⟨text, -, rfl⟩ := List.mem_map.mp hk
    simp [StatementKind.isExecutable]
  have hmap : ∀ ks : List StatementKind, (ks.map (⟨l.number, ·⟩ : StatementKind → Statement)).filter
      (fun s => s.kind.isExecutable) = (ks.filter StatementKind.isExecutable).map (⟨l.number, ·⟩) :=
    fun ks => List.filter_map
  -- comments do not take a line up, so its statement alone is left
  rw [Statement.ofLine, hmap, List.filter_append, hcomments, List.append_nil, held]
  cases l.statement with
  | none =>
    dsimp only
    split <;> rfl
  | some s =>
    have hall := List.filter_eq_self.mpr (Stmt.isExecutable_ofTree (s := s))
    rw [hall]
    rfl

theorem Line.filter_statements (keep : Bool) (ls : List Line) :
    (ls.flatMap (Statement.ofLine keep)).filter (fun s => s.kind.isExecutable)
      = ls.flatMap held := by
  rw [List.filter_flatMap]
  exact List.flatMap_congr fun l _ => filter_ofLine keep l

/-- The signs of a function before its first line. -/
def Routine.headSigns (r : Routine) : List Sign :=
  [.word "Function", .word r.name, .token .lparen] ++
    separated (.token .comma) (r.params.map Param.signs) ++
    [.token .rparen, .word r.returnType.keyword]

theorem Routine.signs_append (r : Routine) (after : List Sign) :
    r.signs ++ after = r.headSigns ++ Line.rows r.lines (.word "Function" :: after) := by
  simp [Routine.signs, Routine.openSigns, headSigns, Line.rows]

/-- The first lines of functions that stand for one function are the same. -/
theorem Routine.headSigns_congr {keep : Bool} {r r' : Routine}
    (h : ContractBasic.Routine.ofTree keep r' = .ofTree keep r) : r'.headSigns = r.headSigns := by
  have hname : r'.name = r.name := congrArg ContractBasic.Routine.name h
  have htype : r'.returnType = r.returnType := congrArg ContractBasic.Routine.returnType h
  have hparams := congrArg ContractBasic.Routine.params h
  have hsigns : r'.params.map Param.signs = r.params.map Param.signs := by
    have hfactor : Param.signs = (fun p : ContractBasic.Param =>
        [Sign.word p.name, Sign.word p.type.keyword]) ∘ fun p : Param => ⟨p.name, p.type⟩ := rfl
    rw [hfactor, ← List.map_map, ← List.map_map]
    exact congrArg _ hparams
  rw [headSigns, headSigns, hname, htype, hsigns]

/-- **A tree with the row and the program of a regular tree is regular**, if no two of its
statements share a line. -/
theorem regular_of_signs {keep : Bool} {t t' : ParseTree} {ts : List Token}
    (ht : ∀ r ∈ t.routines, r.Shaped) (ht' : t'.Regular)
    (hdistinct : ∀ r ∈ t.routines, r.takenLines.Nodup)
    (hsame : Program.ofTree keep t' = Program.ofTree keep t)
    (h : List.Forall₂ Sign.Fits t.signs ts) (h' : List.Forall₂ Sign.Fits t'.signs ts) :
    t.Regular := by
  obtain ⟨rs, trailing⟩ := t
  obtain ⟨rs', trailing'⟩ := t'
  have hroutines : rs'.map (Routine.ofTree keep) = rs.map (Routine.ofTree keep) :=
    congrArg Program.routines hsame
  change List.Forall₂ _ (rs.flatMap Routine.signs) ts at h
  change List.Forall₂ _ (rs'.flatMap Routine.signs) ts at h'
  change ∀ r ∈ rs, r.Regular
  clear hsame
  -- by induction on the functions: the row that is left behind one is the row of the others
  induction rs generalizing ts rs' with
  | nil => nofun
  | cons r rs ih =>
    cases rs' with
    | nil => cases hroutines
    | cons r' rs' =>
      obtain ⟨hr, hrs⟩ := List.forall_mem_cons.mp ht
      obtain ⟨hr', hrs'⟩ := List.forall_mem_cons.mp (show ∀ q ∈ r' :: rs', q.Regular from ht')
      obtain ⟨hone, hmore⟩ := List.cons.inj hroutines
      rw [List.flatMap_cons, Routine.signs_append] at h h'
      obtain ⟨us, vs, rfl, hus, hvs⟩ := Sign.forall₂_append.mp h
      obtain ⟨us', vs', hsplit, hus', hvs'⟩ := Sign.forall₂_append.mp h'
      rw [Routine.headSigns_congr hone] at hus'
      -- the heads are the same signs, hence of one length, so both rows are cut alike
      obtain ⟨rfl, rfl⟩ := List.append_inj hsplit (hus.length_eq.symm.trans hus'.length_eq)
      have hheld : r'.lines.flatMap Line.held = r.lines.flatMap Line.held := by
        rw [← Line.filter_statements keep, ← Line.filter_statements keep]
        exact congrArg (fun q => q.statements.filter fun s => s.kind.isExecutable) hone
      obtain ⟨hlines, ws, hws, hws'⟩ := Line.regular_of_rows hr.lines hr'.lines
        (hdistinct r List.mem_cons_self) hheld hvs hvs'
      obtain ⟨w, ws, -, hmain, rfl⟩ := List.forall₂_cons_left_iff.mp hws
      have hrest := ih hrs (fun q hq => hdistinct q (List.mem_cons_of_mem _ hq)) rs' hrs' hmore hmain
        (List.forall₂_cons.mp hws').2
      exact List.forall_mem_cons.mpr ⟨⟨hr.params, hr.returnType, hlines⟩, hrest⟩

end ParseTree

/-! ### Rows with comments -/

/-- Whether a sign stands for a comment. -/
def Sign.isComment : Sign → Bool
  | token t => t.isComment
  | keyword _ => false

/-- Without comments, tokens stand for the signs that are no comments. -/
theorem Sign.fits_filter {gs : List Sign} {ts : List Token} (h : List.Forall₂ Fits gs ts) :
    List.Forall₂ Fits (gs.filter fun g => !g.isComment) (ts.filter fun t => !t.isComment) := by
  induction h with
  | nil => exact .nil
  | @cons g t gs ts hfits _ ih =>
    -- a comment fits no keyword, and any other sign is the token itself
    have hsame : t.isComment = g.isComment := by
      cases g with
      | token u => rw [fits_token.mp hfits]; rfl
      | keyword k =>
        cases t with
        | comment raw => cases hfits
        | _ => rfl
    rw [List.filter_cons, List.filter_cons, hsame]
    split
    · exact .cons hfits ih
    · exact ih

namespace ParseTree

theorem Expr.Canonical.isComment_tokens {e : Expr} (he : e.Canonical) :
    ∀ t ∈ e.tokens, t.isComment = false := by
  induction he with
  | @call f args hargs ih =>
    have hmem : ∀ rows : List (List Token), (∀ row ∈ rows, ∀ t ∈ row, t.isComment = false) →
        ∀ t ∈ separated .comma rows, t.isComment = false := by
      intro rows hrows t ht
      rcases mem_of_mem_separated _ ht with rfl | ⟨row, hrow, ht⟩
      · rfl
      · exact hrows row hrow t ht
    have hargs := hmem (args.map tokens) (by simpa using ih)
    rw [tokens, tokensOf_eq_map]
    simpa [Token.isComment, or_imp, forall_and] using hargs
  | paren _ ih => simpa [tokens, Token.isComment, or_imp, forall_and] using ih
  | not _ _ ih => simpa [tokens, Token.isComment] using ih
  | binary _ _ _ _ _ ihl ihr =>
    simpa [tokens, Token.isComment, or_imp, forall_and] using ⟨ihl, ihr⟩
  | _ => simp [tokens, Token.isComment]

theorem Stmt.Shaped.isComment_signs {s : Stmt} (hs : s.Shaped) :
    ∀ g ∈ s.signs, g.isComment = false := by
  have hexpr : ∀ e, s.expression? = some e → ∀ g ∈ e.signs, g.isComment = false := by
    intro e he g hg
    obtain ⟨t, ht, rfl⟩ := List.mem_map.mp hg
    exact (hs.canonical e he).isComment_tokens t ht
  cases s with
  | dim names type =>
    intro g hg
    simp only [signs, List.mem_append, List.mem_cons] at hg
    rcases hg with (rfl | hg) | rfl | rfl | hg
    · rfl
    · rcases mem_of_mem_separated _ hg with rfl | ⟨row, hrow, hg⟩
      · rfl
      · obtain ⟨n, -, rfl⟩ := List.mem_map.mp hrow
        rw [List.mem_singleton.mp hg]
        rfl
    · rfl
    · rfl
    · cases hg
  | assign n e =>
    simpa [signs, Sign.isComment, Sign.word, Token.isComment] using hexpr e rfl
  | goto n => simp [signs, Sign.isComment, Sign.number, Token.isComment]
  | branch c n m =>
    have h := hexpr c rfl
    cases m <;>
      simpa [signs, Sign.isComment, Sign.number, Token.isComment, or_imp, forall_and] using h
  | result e => simpa [signs, Sign.isComment] using hexpr e rfl
  | evaluate e => exact hexpr e rfl

theorem filter_commentTokens (cs : List Comment) :
    ((commentTokens cs).map Sign.token).filter (fun g => !g.isComment) = [] := by
  rw [List.filter_eq_nil_iff]
  intro g hg
  obtain ⟨t, ht, rfl⟩ := List.mem_map.mp hg
  obtain ⟨c, -, rfl⟩ := List.mem_map.mp ht
  simp [Sign.isComment, Token.isComment]

/-- The row of a line without its comments are its signs. -/
theorem Line.filter_row {l : Line} (hl : ∀ s ∈ l.statement, s.Shaped) :
    l.row.filter (fun g => !g.isComment) = l.signs := by
  rw [row, List.filter_append, filter_commentTokens, List.append_nil, List.filter_eq_self]
  intro g hg
  rcases List.mem_cons.mp hg with rfl | hg
  · rfl
  · cases hstatement : l.statement with
    | none =>
      rw [hstatement] at hg
      cases hg
    | some s =>
      rw [hstatement] at hg
      rw [(hl s hstatement).isComment_signs g hg]
      rfl

theorem Routine.filter_row {r : Routine} (hr : r.Shaped) :
    r.row.filter (fun g => !g.isComment) = r.signs := by
  have hlines : (r.lines.flatMap Line.row).filter (fun g => !g.isComment)
      = r.lines.flatMap Line.signs := by
    rw [List.filter_flatMap]
    exact List.flatMap_congr fun l hl => Line.filter_row (hr.lines l hl)
  have hparam : ∀ p : Param,
      (p.tokens.map Sign.token).filter (fun g => !g.isComment) = p.signs := by
    intro p
    rw [Param.tokens, List.map_append, List.filter_append, filter_commentTokens]
    rfl
  have hparams : ((separated .comma (r.params.map Param.tokens)).map Sign.token).filter
      (fun g => !g.isComment) = separated (.token .comma) (r.params.map Param.signs) := by
    rw [map_separated, filter_separated _ rfl, List.map_map, List.map_map]
    congr 1
    exact List.map_congr_left fun p _ => hparam p
  rw [row, headTokens, List.filter_append, List.filter_append, hlines]
  simp only [List.map_append, List.filter_append, filter_commentTokens, hparams]
  rfl

end ParseTree

/-- Tokens that stand for the row of a tree stand without comments for its signs. -/
theorem ParseTree.fits_signs_of_row {t : ParseTree} (ht : ∀ r ∈ t.routines, r.Shaped)
    {ts : List Token} (h : List.Forall₂ Sign.Fits t.row ts) :
    List.Forall₂ Sign.Fits t.signs (ts.filter fun t => !t.isComment) := by
  have hrow : t.row.filter (fun g => !g.isComment) = t.signs := by
    rw [row, List.filter_append, filter_commentTokens, List.append_nil, List.filter_flatMap]
    exact List.flatMap_congr fun r hr => Routine.filter_row (ht r hr)
  rw [← hrow]
  exact Sign.fits_filter h

end ContractBasic
