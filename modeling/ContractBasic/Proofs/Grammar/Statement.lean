/-
Readings of statements.

* `StmtReading.Moves`, `StmtReading.moves_of_step` — what a step does, as a list
* `StmtReading.step_signs` — one more token is one more sign of what has been read
* `StmtReading.Regular` — the parts of a reading are regular, and a step keeps them so
* `StmtReading.whole?_signs` — the statement of a reading has the signs of the reading
-/
import ContractBasic.Proofs.Grammar.Expression

namespace ContractBasic

namespace Grammar

open ParseTree

/-! ### Statements -/

/-- What stands before the expression of a statement. -/
def Purpose.signs : Purpose → List Sign
  | assign n => [.keyword "LET", .word n, .token .assign]
  | condition => [.keyword "IF"]
  | result => [.keyword "RETURN"]
  | evaluate => []

namespace StmtReading

/-- What has been read of a statement. -/
def signs : StmtReading → List Sign
  | start => []
  | dim => [.keyword "DIM"]
  | dimComma names => .keyword "DIM" :: names.flatMap fun n => [.word n, .token .comma]
  | dimName names => .keyword "DIM" :: nameSigns names
  | dimAs names => .keyword "DIM" :: nameSigns names ++ [.keyword "AS"]
  | assign => [.keyword "LET"]
  | assignName n => [.keyword "LET", .word n]
  | expr p e => p.signs ++ e.tokens.map .token
  | goto => [.keyword "GOTO"]
  | branchThen c => .keyword "IF" :: c.signs ++ [.keyword "THEN"]
  | thenGoto c => .keyword "IF" :: c.signs ++ [.keyword "THEN", .keyword "GOTO"]
  | thenTarget c n => (Stmt.branch c n none).signs
  | branchElse c n => (Stmt.branch c n none).signs ++ [.keyword "ELSE"]
  | elseGoto c n => (Stmt.branch c n none).signs ++ [.keyword "ELSE", .keyword "GOTO"]
  | done s => s.signs

/-- What the parts of a reading satisfy beyond their signs.  The first token of a bare expression
claims nothing else for the line. -/
def Regular : StmtReading → Prop
  | dimName names | dimAs names => names ≠ []
  | expr p e =>
    e.Canonical ∧ (p = .evaluate → ∃ t ts, e.tokens = t :: ts ∧ t.claimsLine = false)
  | branchThen c | thenGoto c | thenTarget c _ | branchElse c _ | elseGoto c _ => c.Canonical
  | done s => s.Regular
  | start | dim | dimComma _ | assign | assignName _ | goto => True

theorem lookup_openers (k : String) : openers.lookup k =
    if k = "DIM" then some .dim
    else if k = "LET" then some .assign
    else if k = "GOTO" then some .goto
    else if k = "IF" then some (.expr .condition .start)
    else if k = "RETURN" then some (.expr .result .start)
    else none := by
  simp only [openers, List.lookup_cons, List.lookup_nil]
  repeat' split
  all_goals simp_all

/-- The reading behind the keyword that opens a statement. -/
theorem signs_of_lookup {k : String} {r : StmtReading} (h : openers.lookup k = some r) :
    r.signs = [.keyword k] ∧ r.Regular := by
  rw [lookup_openers] at h
  repeat' split at h
  -- five keywords are left, and the last two announce an expression
  all_goals cases h
  · rename_i hk
    exact ⟨by rw [hk]; rfl, trivial⟩
  · rename_i hk
    exact ⟨by rw [hk]; rfl, trivial⟩
  · rename_i hk
    exact ⟨by rw [hk]; rfl, trivial⟩
  · rename_i hk
    exact ⟨by rw [hk]; rfl, ExprReading.canonical_start, nofun⟩
  · rename_i hk
    exact ⟨by rw [hk]; rfl, ExprReading.canonical_start, nofun⟩

theorem lookup_openers_eq_none {k : String} :
    openers.lookup k = none ↔ statementKeywords.contains k = false := by
  rw [lookup_openers]
  simp only [statementKeywords, List.contains_eq_mem, List.mem_cons, List.not_mem_nil, or_false,
    decide_eq_false_iff_not, not_or]
  repeat' split
  all_goals simp_all

/-- What one more token makes of a reading, by the kind of the move.  What steps preserve is proved by
cases of the moves. -/
inductive Moves : StmtReading → Token → StmtReading → Prop where
  | opener {w : String} {r : StmtReading} (h : openers.lookup w.toUpper = some r) :
      Moves start (.word w) r
  | bare {t : Token} {e : ExprReading} (ht : t.opensStatement = false)
      (he : ExprReading.start.step t = some e) : Moves start t (expr .evaluate e)
  | firstName (w : String) : Moves dim (.word w) (dimName [w])
  | nextName (names : List String) (w : String) :
      Moves (dimComma names) (.word w) (dimName (names ++ [w]))
  | comma (names : List String) : Moves (dimName names) .comma (dimComma names)
  | namesOver {names : List String} {t : Token} (ht : t.isKeyword "AS" = true) :
      Moves (dimName names) t (dimAs names)
  | type (names : List String) {type : ValueType} (h : type ≠ .unknown) :
      Moves (dimAs names) (.word type.keyword) (done (.dim names type))
  | assigned (w : String) : Moves assign (.word w) (assignName w)
  | equals (n : String) : Moves (assignName n) .assign (expr (.assign n) .start)
  | part {p : Purpose} {e e' : ExprReading} {t : Token} (he : e.step t = some e') :
      Moves (expr p e) t (expr p e')
  | conditionOver {e : ExprReading} {v : Expr} {t : Token} (hv : e.value? = some v)
      (ht : t.isKeyword "THEN" = true) : Moves (expr .condition e) t (branchThen v)
  | jump (n : UInt64) : Moves goto (.number n) (done (.goto n))
  | thenGoto {c : Expr} {t : Token} (ht : t.isKeyword "GOTO" = true) :
      Moves (branchThen c) t (thenGoto c)
  | thenTarget (c : Expr) (n : UInt64) : Moves (thenGoto c) (.number n) (thenTarget c n)
  | branchElse {c : Expr} {n : UInt64} {t : Token} (ht : t.isKeyword "ELSE" = true) :
      Moves (thenTarget c n) t (branchElse c n)
  | elseGoto {c : Expr} {n : UInt64} {t : Token} (ht : t.isKeyword "GOTO" = true) :
      Moves (branchElse c n) t (elseGoto c n)
  | elseTarget (c : Expr) (n m : UInt64) :
      Moves (elseGoto c n) (.number m) (done (.branch c n (some m)))

theorem moves_of_stepStart {t : Token} {r : StmtReading} (h : stepStart t = some r) :
    Moves start t r := by
  unfold stepStart at h
  split at h
  · rename_i w
    rcases Option.or_eq_some_iff.mp h with hk | ⟨hk, he⟩
    · exact .opener hk
    · obtain ⟨e, hfirst, rfl⟩ := Option.map_eq_some_iff.mp he
      exact .bare (lookup_openers_eq_none.mp hk) hfirst
  · rename_i hw
    obtain ⟨e, hfirst, rfl⟩ := Option.map_eq_some_iff.mp h
    refine .bare ?_ hfirst
    cases t with
    | word w => exact absurd rfl (hw w)
    | _ => rfl

/-- A step is one of the moves. -/
theorem moves_of_step {r r' : StmtReading} {t : Token} (h : r.step t = some r') : Moves r t r' := by
  cases r with
  | start => exact moves_of_stepStart h
  | dimName names =>
    simp only [step] at h
    split at h
    · rename_i ht
      cases h
      exact ht ▸ .comma names
    · split at h
      · rename_i ht
        cases h
        exact .namesOver ht
      · cases h
  | dimAs names =>
    cases t with
    | word w =>
      obtain ⟨type, htype, rfl⟩ := Option.map_eq_some_iff.mp h
      obtain ⟨rfl, hne⟩ := ValueType.ofKeyword?_eq_some.mp htype
      exact .type names hne
    | _ => cases h
  | expr p e =>
    simp only [step] at h
    split at h
    · rename_i e' he
      cases h
      exact .part he
    · -- a token that the expression does not go on with is the `THEN` behind a condition
      split at h
      · rename_i hk
        obtain ⟨rfl, ht⟩ := hk
        obtain ⟨v, hv, rfl⟩ := Option.map_eq_some_iff.mp h
        exact .conditionOver hv ht
      · cases h
  | branchThen c =>
    obtain ⟨ht, ⟨⟩⟩ := Option.ite_none_right_eq_some.mp h
    exact .thenGoto ht
  | thenTarget c n =>
    obtain ⟨ht, ⟨⟩⟩ := Option.ite_none_right_eq_some.mp h
    exact .branchElse ht
  | branchElse c n =>
    obtain ⟨ht, ⟨⟩⟩ := Option.ite_none_right_eq_some.mp h
    exact .elseGoto ht
  | dim | dimComma names | assign | assignName n | goto | thenGoto c | elseGoto c n =>
    cases t <;> cases h
    constructor
  | done s => cases h

theorem nameSigns_concat (names : List String) (n : String) :
    nameSigns (names ++ [n]) = (names.flatMap fun n => [.word n, .token .comma]) ++ [.word n] := by
  rw [nameSigns, List.map_append]
  exact (separated_concat _ _ _).trans (by rw [List.flatMap_map]; rfl)

/-- One more token of a statement is one more sign of what has been read. -/
theorem step_signs {r r' : StmtReading} {t : Token} (hr : r.Regular) (h : r.step t = some r') :
    ∃ g, r'.signs = r.signs ++ [g] ∧ g.Fits t := by
  cases moves_of_step h with
  | opener hopener => exact ⟨.keyword _, (signs_of_lookup hopener).1, by simp [Token.isKeyword]⟩
  | bare _ he =>
    refine ⟨.token t, ?_, rfl⟩
    simp only [signs, ExprReading.step_tokens he]
    rfl
  | firstName w => exact ⟨.word w, by simp [signs, nameSigns], rfl⟩
  | nextName names w => exact ⟨.word w, by simp [signs, nameSigns_concat], rfl⟩
  | comma names =>
    refine ⟨.token .comma, ?_, rfl⟩
    rcases names.eq_nil_or_concat with rfl | ⟨ns, n, rfl⟩
    · exact absurd rfl hr
    · simp [signs, nameSigns_concat]
  | namesOver ht => exact ⟨.keyword "AS", by simp [signs], ht⟩
  | @type names type => exact ⟨.word type.keyword, by simp [signs, Stmt.signs], rfl⟩
  | assigned w => exact ⟨.word w, by simp [signs], rfl⟩
  | equals n => exact ⟨.token .assign, rfl, rfl⟩
  | part he => exact ⟨.token t, by simp [signs, ExprReading.step_tokens he], rfl⟩
  | conditionOver hv ht =>
    refine ⟨.keyword "THEN", ?_, ht⟩
    simp [signs, Purpose.signs, Expr.signs, ExprReading.value?_tokens hv]
  | jump n => exact ⟨.number n, rfl, rfl⟩
  | thenGoto ht => exact ⟨.keyword "GOTO", by simp [signs], ht⟩
  | thenTarget c n => exact ⟨.number n, by simp [signs, Stmt.signs], rfl⟩
  | branchElse ht => exact ⟨.keyword "ELSE", rfl, ht⟩
  | elseGoto ht => exact ⟨.keyword "GOTO", by simp [signs], ht⟩
  | elseTarget c n m => exact ⟨.number m, by simp [signs, Stmt.signs], rfl⟩

/-- A step keeps a reading regular; the first token must not end the line. -/
theorem Regular.step {r r' : StmtReading} {t : Token} (hr : r.Regular) (h : r.step t = some r')
    (ht : r = .start → t.endsLine = false) : r'.Regular := by
  cases moves_of_step h with
  | opener hopener => exact (signs_of_lookup hopener).2
  | bare hopens he =>
    -- the token is all of the expression, and it claims nothing: it opens no statement and ends no line
    refine ⟨ExprReading.canonical_start.step he, fun _ => ⟨t, [], ?_, ?_⟩⟩
    · rw [ExprReading.step_tokens he]
      rfl
    · rw [Token.claimsLine, ht rfl, hopens]
      rfl
  | firstName w => exact List.cons_ne_nil _ _
  | nextName names w => exact List.append_ne_nil_of_right_ne_nil _ (List.cons_ne_nil _ _)
  | type names hne =>
    refine ⟨nofun, ?_, nofun⟩
    rintro _ _ ⟨⟩
    exact ⟨hr, hne⟩
  | equals n => exact ⟨ExprReading.canonical_start, nofun⟩
  | part he =>
    refine ⟨hr.1.step he, fun hp => ?_⟩
    -- the expression grows at its end, so its first token stays
    obtain ⟨u, us, hu, hclaim⟩ := hr.2 hp
    refine ⟨u, us ++ [t], ?_, hclaim⟩
    rw [ExprReading.step_tokens he, hu]
    rfl
  | conditionOver hv => exact hr.1.value? hv
  | jump n => exact ⟨nofun, nofun, nofun⟩
  | elseTarget c n m =>
    refine ⟨?_, nofun, nofun⟩
    rintro _ ⟨⟩
    exact hr
  | comma | assigned => trivial
  | namesOver | thenGoto | thenTarget | branchElse | elseGoto => exact hr

/-- The statement that a reading stands for has the signs of the reading. -/
theorem whole?_signs {r : StmtReading} {s : Option Stmt} (h : r.whole? = some s) :
    (s.map Stmt.signs).getD [] = r.signs := by
  cases r with
  | start =>
    cases h
    rfl
  | expr p e =>
    cases p with
    | condition => cases h
    | _ =>
      obtain ⟨v, hv, rfl⟩ := Option.map_eq_some_iff.mp h
      simp [signs, Purpose.signs, Stmt.signs, Expr.signs, ExprReading.value?_tokens hv]
  | thenTarget c n =>
    cases h
    rfl
  | done s =>
    cases h
    rfl
  | _ => cases h

theorem Regular.whole? {r : StmtReading} {s : Stmt} (hr : r.Regular)
    (h : r.whole? = some (some s)) : s.Regular := by
  cases r with
  | expr p e =>
    have hcanonical : ∀ v, e.value? = some v → v.Canonical := fun v hv => hr.1.value? hv
    cases p with
    | condition => cases h
    | evaluate =>
      obtain ⟨v, hv, heq⟩ := Option.map_eq_some_iff.mp h
      cases heq
      refine ⟨?_, nofun, ?_⟩
      · rintro w ⟨⟩
        exact hcanonical v hv
      · rintro w ⟨⟩ t ht
        obtain ⟨u, us, hu, hclaim⟩ := hr.2 rfl
        rw [ExprReading.value?_tokens hv, hu] at ht
        cases ht
        exact hclaim
    | _ =>
      obtain ⟨v, hv, heq⟩ := Option.map_eq_some_iff.mp h
      cases heq
      refine ⟨?_, nofun, nofun⟩
      rintro w ⟨⟩
      exact hcanonical v hv
  | thenTarget c n =>
    cases h
    refine ⟨?_, nofun, nofun⟩
    rintro w ⟨⟩
    exact hr
  | done s =>
    cases h
    exact hr
  | _ => cases h

/-! ### Reading what is written -/

/-- The tokens of an expression are read on inside its statement. -/
theorem foldlM_expr (p : Purpose) {ts : List Token} {e e' : ExprReading}
    (h : ts.foldlM ExprReading.step e = some e') :
    ts.foldlM step (expr p e) = some (expr p e') := by
  induction ts generalizing e with
  | nil =>
    cases h
    rfl
  | cons t ts ih =>
    obtain ⟨e₁, he, h⟩ := Option.bind_eq_some_iff.mp h
    have hstep : step (expr p e) t = some (expr p e₁) := by simp [step, he]
    rw [List.foldlM_cons, hstep]
    exact ih h

/-- An expression of canonical shape is read to its end. -/
theorem foldlM_tokens (p : Purpose) {e : Expr} (he : e.Canonical) :
    ∃ r, e.tokens.foldlM step (expr p .start) = some (expr p r) ∧ r.value? = some e ∧
      ∀ w, r.step (.word w) = none := by
  obtain ⟨spot, hfold, hspot⟩ := ExprReading.foldlM_tokens he [] .first (Slot.takes_first e)
  refine ⟨⟨[], spot⟩, foldlM_expr p hfold, ExprReading.value?_of_chain? hspot, fun w => ?_⟩
  exact ExprReading.step_of_chain? hspot (by simp)

/-- The names of a declaration are read one by one. -/
theorem foldlM_names (before : List String) {names : List String} (hne : names ≠ []) :
    (separated Token.comma (names.map fun n => [.word n])).foldlM step (dimComma before)
      = some (dimName (before ++ names)) := by
  induction names generalizing before with
  | nil => exact absurd rfl hne
  | cons n rest ih =>
    rcases rest with _ | ⟨m, rest⟩
    · rfl
    · rw [List.map_cons, List.map_cons, separated_cons_cons]
      simpa [step] using ih (before ++ [n]) nofun

/-- A keyword opens its statement. -/
theorem step_start_of_isKeyword {k : String} {t : Token} {r : StmtReading}
    (hr : openers.lookup k = some r) (ht : t.isKeyword k = true) : step start t = some r := by
  cases t with
  | word w =>
    have hw : w.toUpper = k := by simpa [Token.isKeyword] using ht
    simp [step, stepStart, hw, hr]
  | _ => cases ht

/-- The first token of a bare expression is read as such. -/
theorem step_start_of_claimsLine {t : Token} (ht : t.claimsLine = false) :
    step start t = step (expr .evaluate .start) t := by
  -- a reading that waits for a bare expression takes a token if the expression starts with it
  have hexpr : step (expr .evaluate .start) t
      = (ExprReading.start.step t).map (expr .evaluate) := by
    simp only [step]
    cases ExprReading.start.step t <;> simp
  rw [hexpr]
  cases t with
  | word w =>
    have hw : openers.lookup w.toUpper = none := by
      rw [lookup_openers_eq_none]
      simp only [Token.claimsLine, Bool.or_eq_false_iff] at ht
      exact ht.2
    simp [step, stepStart, hw]
  | _ => rfl

/-- The names of a declaration are read behind its keyword. -/
theorem foldlM_dim {names : List String} (hne : names ≠ []) :
    (separated Token.comma (names.map fun n => [.word n])).foldlM step dim
      = some (dimName names) := by
  have h := foldlM_names [] hne
  rcases names with _ | ⟨n, _ | ⟨m, rest⟩⟩
  · exact absurd rfl hne
  · rfl
  · rw [List.map_cons, List.map_cons, separated_cons_cons] at h ⊢
    exact h

theorem nameSigns_eq_map (names : List String) :
    nameSigns names = (separated Token.comma (names.map fun n => [.word n])).map .token := by
  rw [map_separated, List.map_map]
  rfl

section Written

variable {ts : List Token}

/-- A declaration is read as it is written. -/
theorem foldlM_declaration {names : List String} {type : ValueType} (hne : names ≠ [])
    (htype : type ≠ .unknown) (h : List.Forall₂ Sign.Fits (Stmt.dim names type).signs ts) :
    ts.foldlM step start = some (done (.dim names type)) := by
  obtain ⟨t, us, ht, hus, rfl⟩ := List.forall₂_cons_left_iff.mp h
  obtain ⟨row, ends, rfl, hrow, hends⟩ := Sign.forall₂_append.mp hus
  obtain ⟨u, vs, hu, hvs, rfl⟩ := List.forall₂_cons_left_iff.mp hends
  obtain ⟨v, ws, rfl, hws, rfl⟩ := List.forall₂_cons_left_iff.mp hvs
  cases hws
  rw [nameSigns_eq_map, Sign.forall₂_map_token] at hrow
  -- the row is cut into keyword, names, keyword and type, and each of them is one move or one fold
  have hstart : step start t = some dim := step_start_of_isKeyword rfl ht
  have has : step (dimName names) u = some (dimAs names) := by
    have hcomma : u ≠ .comma := by
      rintro rfl
      cases hu
    simp [step, hcomma, show u.isKeyword "AS" = true from hu]
  have hend : step (dimAs names) (.word type.keyword) = some (done (.dim names type)) := by
    simp [step, ValueType.ofKeyword?_eq_some.mpr ⟨rfl, htype⟩]
  simp [hstart, hrow, foldlM_dim hne, has, hend]

/-- An assignment is read as it is written, up to the end of its expression. -/
theorem foldlM_assignment {n : String} {e : Expr} (he : e.Canonical)
    (h : List.Forall₂ Sign.Fits (Stmt.assign n e).signs ts) :
    ∃ r, ts.foldlM step start = some (expr (.assign n) r) ∧ r.value? = some e := by
  obtain ⟨t, us, ht, hus, rfl⟩ := List.forall₂_cons_left_iff.mp h
  obtain ⟨u, vs, rfl, hvs, rfl⟩ := List.forall₂_cons_left_iff.mp hus
  obtain ⟨v, ws, rfl, hws, rfl⟩ := List.forall₂_cons_left_iff.mp hvs
  have hrow : ws = e.tokens := Sign.forall₂_map_token.mp hws
  have hstart : step start t = some assign := step_start_of_isKeyword rfl ht
  have hname : step assign (.word n) = some (assignName n) := rfl
  have hassign : step (assignName n) .assign = some (expr (.assign n) .start) := rfl
  obtain ⟨r, hfold, hvalue, -⟩ := foldlM_tokens (.assign n) he
  exact ⟨r, by simpa [hstart, hname, hassign, hrow] using hfold, hvalue⟩

/-- A branch is read as it is written, up to its first target. -/
theorem foldlM_branch {c : Expr} {n : UInt64} (hc : c.Canonical)
    (h : List.Forall₂ Sign.Fits (Stmt.branch c n none).signs ts) :
    ts.foldlM step start = some (thenTarget c n) := by
  rw [Stmt.signs, List.append_nil] at h
  obtain ⟨t, us, ht, hus, rfl⟩ := List.forall₂_cons_left_iff.mp h
  obtain ⟨row, vs, rfl, hrow, hvs⟩ := Sign.forall₂_append.mp hus
  obtain ⟨v, ws, hv, hws, rfl⟩ := List.forall₂_cons_left_iff.mp hvs
  obtain ⟨w, xs, hw, hxs, rfl⟩ := List.forall₂_cons_left_iff.mp hws
  obtain ⟨x, ys, rfl, hys, rfl⟩ := List.forall₂_cons_left_iff.mp hxs
  cases hys
  rw [Expr.signs, Sign.forall₂_map_token] at hrow
  have hstart : step start t = some (expr .condition .start) := step_start_of_isKeyword rfl ht
  obtain ⟨r, hfold, hvalue, hnone⟩ := foldlM_tokens .condition hc
  -- the condition is over at `THEN`, since no word goes on with a whole expression
  have hthen : step (expr .condition r) v = some (branchThen c) := by
    have hv' : v.isKeyword "THEN" = true := hv
    cases v with
    | word k => simp [step, hnone, hv', hvalue]
    | _ => cases hv'
  have hgoto : step (branchThen c) w = some (thenGoto c) := if_pos hw
  have hnumber : step (thenGoto c) (.number n) = some (thenTarget c n) := rfl
  simp [hstart, hrow, hfold, hthen, hgoto, hnumber]

/-- The second target of a branch is read as it is written. -/
theorem foldlM_otherwise (c : Expr) (n : UInt64) {m : UInt64}
    (h : List.Forall₂ Sign.Fits [.keyword "ELSE", .keyword "GOTO", .number m] ts) :
    ts.foldlM step (thenTarget c n) = some (done (.branch c n (some m))) := by
  obtain ⟨t, us, ht, hus, rfl⟩ := List.forall₂_cons_left_iff.mp h
  obtain ⟨u, vs, hu, hvs, rfl⟩ := List.forall₂_cons_left_iff.mp hus
  obtain ⟨v, ws, rfl, hws, rfl⟩ := List.forall₂_cons_left_iff.mp hvs
  cases hws
  have helse : step (thenTarget c n) t = some (branchElse c n) := if_pos ht
  have hgoto : step (branchElse c n) u = some (elseGoto c n) := if_pos hu
  have hnumber : step (elseGoto c n) (.number m) = some (done (.branch c n (some m))) := rfl
  simp [helse, hgoto, hnumber]

/-- A regular statement is read as it is written, with its keywords in any case. -/
theorem foldlM_signs {s : Stmt} (hs : s.Regular) (h : List.Forall₂ Sign.Fits s.signs ts) :
    ∃ r, ts.foldlM step start = some r ∧ r.whole? = some (some s) := by
  cases s with
  | dim names type =>
    obtain ⟨hne, htype⟩ := hs.dim names type rfl
    exact ⟨done (.dim names type), foldlM_declaration hne htype h, rfl⟩
  | assign n e =>
    obtain ⟨r, hfold, hvalue⟩ := foldlM_assignment (hs.canonical e rfl) h
    exact ⟨expr (.assign n) r, hfold, by simp [whole?, hvalue]⟩
  | goto n =>
    obtain ⟨t, us, ht, hus, rfl⟩ := List.forall₂_cons_left_iff.mp h
    obtain ⟨u, vs, rfl, hvs, rfl⟩ := List.forall₂_cons_left_iff.mp hus
    cases hvs
    have hstart : step start t = some goto := step_start_of_isKeyword rfl ht
    have htarget : step goto (.number n) = some (done (.goto n)) := rfl
    exact ⟨done (.goto n), by simp [hstart, htarget], rfl⟩
  | branch c n otherwise =>
    have hc := hs.canonical c rfl
    cases otherwise with
    | none => exact ⟨thenTarget c n, foldlM_branch hc h, rfl⟩
    | some m =>
      obtain ⟨us, vs, rfl, hus, hvs⟩ := Sign.forall₂_append.mp h
      -- a branch with two targets is read as one with a single target, and then goes on
      have hbranch := foldlM_branch hc (by rwa [Stmt.signs, List.append_nil])
      refine ⟨done (.branch c n (some m)), ?_, rfl⟩
      rw [List.foldlM_append, hbranch]
      exact foldlM_otherwise c n hvs
  | result e =>
    obtain ⟨t, us, ht, hus, rfl⟩ := List.forall₂_cons_left_iff.mp h
    rw [Expr.signs, Sign.forall₂_map_token] at hus
    have hstart : step start t = some (expr .result .start) := step_start_of_isKeyword rfl ht
    obtain ⟨r, hfold, hvalue, -⟩ := foldlM_tokens .result (hs.canonical e rfl)
    exact ⟨expr .result r, by simpa [hstart, hus] using hfold, by simp [whole?, hvalue]⟩
  | evaluate e =>
    obtain ⟨t, us, ht, -⟩ := e.tokens_eq_cons
    have hts : ts = e.tokens := Sign.forall₂_map_token.mp h
    have hclaim : t.claimsLine = false := hs.evaluate e rfl t (by rw [ht]; rfl)
    obtain ⟨r, hfold, hvalue, -⟩ := foldlM_tokens .evaluate (hs.canonical e rfl)
    refine ⟨expr .evaluate r, ?_, by simp [whole?, hvalue]⟩
    -- the first token claims nothing, so it is read as if the expression had been announced
    rw [hts, ht, List.foldlM_cons, step_start_of_claimsLine hclaim, ← List.foldlM_cons, ← ht]
    exact hfold

end Written

end StmtReading

end Grammar

end ContractBasic
