/-
Every place of the parser leads on to a whole text.

Whatever has been read, some tokens can follow that bring the reading to an end: they give what is owed
at the place and close what is open.  So the parser never runs into a dead end, and a token that it
refuses is the first one that can follow in no text.

* `ExprReading.closing`, `StmtReading.closing`, `Place.closing` — tokens that complete a reading
* `StmtReading.exists_foldlM_closing` — they complete the statement of a line
* `State.closes_closing` — from every regular state they lead to where a text may end
-/
import ContractBasic.Proofs.Grammar.Completeness
import ContractBasic.Proofs.Token.Scan

namespace ContractBasic

namespace Grammar

open ParseTree

/-! ### Expressions -/

namespace ExprReading

/-- Tokens that complete an expression: an operand or the parenthesis of an empty list of arguments,
where one is owed, and a parenthesis for each enclosure. -/
def closing (r : ExprReading) : List Token :=
  let owed :=
    match r.spot with
    | .operand _ => [.number 0]
    | .called _ _ => [.rparen]
    | .named _ _ | .chain _ => []
  owed ++ r.enclosures.map fun _ => .rparen

/-- Behind an operand, parentheses close the enclosures one by one. -/
theorem exists_foldlM_rparen (es : List Enclosure) (spot : Spot) {e : Expr}
    (h : spot.chain? = some e) : ∃ spot' v,
      (es.map fun _ => Token.rparen).foldlM step ⟨es, spot⟩ = some ⟨[], spot'⟩ ∧
        spot'.chain? = some v := by
  induction es generalizing spot e with
  | nil => exact ⟨spot, e, rfl, h⟩
  | cons c es ih =>
    -- a parenthesis closes any kind of enclosure, and leaves a chain to go on with
    obtain ⟨e', hstep⟩ : ∃ e', step ⟨c :: es, spot⟩ .rparen = some ⟨es, .chain e'⟩ := by
      rw [step_of_chain? h (by decide)]
      cases c with
      | paren slot => exact ⟨_, rfl⟩
      | call slot f args => exact ⟨_, rfl⟩
    obtain ⟨spot', v, hfold, hv⟩ := ih (.chain e') rfl
    exact ⟨spot', v, by rw [List.map_cons, List.foldlM_cons, hstep]; exact hfold, hv⟩

theorem exists_foldlM_closing (r : ExprReading) : ∃ spot v,
    r.closing.foldlM step r = some ⟨[], spot⟩ ∧ spot.chain? = some v := by
  obtain ⟨es, spot⟩ := r
  cases spot with
  | operand slot => exact exists_foldlM_rparen es (.chain (slot.fill (.number 0))) rfl
  | named slot n => exact exists_foldlM_rparen es (.named slot n) rfl
  | called slot n => exact exists_foldlM_rparen es (.chain (slot.fill (.call n []))) rfl
  | chain e => exact exists_foldlM_rparen es (.chain e) rfl

theorem lexical_closing (r : ExprReading) : ∀ t ∈ r.closing, t.Lexical := by
  obtain ⟨es, spot⟩ := r
  intro t ht
  rcases List.mem_append.mp ht with ht | ht
  · cases spot with
    | operand slot =>
      rw [List.mem_singleton.mp ht]
      trivial
    | called slot n =>
      rw [List.mem_singleton.mp ht]
      trivial
    | _ => cases ht
  · obtain ⟨-, -, rfl⟩ := List.mem_map.mp ht
    trivial

end ExprReading

/-! ### Statements -/

namespace StmtReading

/-- Tokens that complete a statement. -/
def closing : StmtReading → List Token
  | start | thenTarget _ _ | done _ => []
  | dim | dimComma _ => [.word "a", .word "AS", .word "Uint64"]
  | dimName _ => [.word "AS", .word "Uint64"]
  | dimAs _ => [.word "Uint64"]
  | assign => [.word "a", .assign, .number 0]
  | assignName _ => [.assign, .number 0]
  | expr .condition e => e.closing ++ [.word "THEN", .word "GOTO", .number 0]
  | expr _ e => e.closing
  | branchThen _ | branchElse _ _ => [.word "GOTO", .number 0]
  | goto | thenGoto _ | elseGoto _ _ => [.number 0]

theorem exists_foldlM_closing (r : StmtReading) :
    ∃ r' s, r.closing.foldlM step r = some r' ∧ r'.whole? = some s := by
  have has : (Token.word "AS").isKeyword "AS" = true := by decide +kernel
  have hthen : (Token.word "THEN").isKeyword "THEN" = true := by decide +kernel
  have hgoto : (Token.word "GOTO").isKeyword "GOTO" = true := by decide +kernel
  have htype : ValueType.ofKeyword? "Uint64" = some .uint64 := by decide
  cases r with
  | start => exact ⟨.start, _, rfl, rfl⟩
  | thenTarget c n => exact ⟨.thenTarget c n, _, rfl, rfl⟩
  | done s => exact ⟨.done s, _, rfl, rfl⟩
  | expr p e =>
    obtain ⟨spot, v, hfold, hv⟩ := e.exists_foldlM_closing
    have hvalue := ExprReading.value?_of_chain? hv
    have hread := foldlM_expr p hfold
    cases p with
    | condition =>
      have hnone : ExprReading.step ⟨[], spot⟩ (.word "THEN") = none :=
        ExprReading.step_of_chain? hv (by decide)
      refine ⟨.thenTarget v 0, _, ?_, rfl⟩
      simp [closing, hread, step, hnone, hthen, hvalue, hgoto]
    | _ => exact ⟨_, _, hread, by simp only [whole?, hvalue]; rfl⟩
  | branchThen c => exact ⟨.thenTarget c 0, _, by simp [closing, step, hgoto], rfl⟩
  | thenGoto c => exact ⟨.thenTarget c 0, _, rfl, rfl⟩
  | branchElse c n => exact ⟨.done (.branch c n (some 0)), _, by simp [closing, step, hgoto], rfl⟩
  | elseGoto c n => exact ⟨.done (.branch c n (some 0)), _, rfl, rfl⟩
  | goto => exact ⟨.done (.goto 0), _, rfl, rfl⟩
  | assign => exact ⟨.expr (.assign "a") ⟨[], .chain (.number 0)⟩, _, rfl, rfl⟩
  | assignName n => exact ⟨.expr (.assign n) ⟨[], .chain (.number 0)⟩, _, rfl, rfl⟩
  | dim => exact ⟨.done (.dim ["a"] .uint64), _, by simp [closing, step, has, htype], rfl⟩
  | dimComma names =>
    exact ⟨.done (.dim (names ++ ["a"]) .uint64), _, by simp [closing, step, has, htype], rfl⟩
  | dimName names => exact ⟨.done (.dim names .uint64), _, by simp [closing, step, has, htype], rfl⟩
  | dimAs names => exact ⟨.done (.dim names .uint64), _, by simp [closing, step, htype], rfl⟩

theorem lexical_closing (r : StmtReading) : ∀ t ∈ r.closing, t.Lexical := by
  have hword : IsWord "a" ∧ IsWord "AS" ∧ IsWord "Uint64" ∧ IsWord "THEN" ∧ IsWord "GOTO" := by
    decide
  cases r with
  | expr p e =>
    cases p with
    | condition =>
      rw [closing, List.forall_mem_append]
      exact ⟨e.lexical_closing, by simp [Token.Lexical, hword]⟩
    | _ => exact e.lexical_closing
  | _ => simp [closing, Token.Lexical, hword]

end StmtReading

/-! ### Places -/

namespace Place

/-- Tokens that complete a function behind its parameter list. -/
def signatureClosing : List Token := [.word "Uint64", .word "End", .word "Function"]

/-- Tokens that complete a text. -/
def closing : Place → List Token
  | outside _ => []
  | opened _ => .word "f" :: .lparen :: .rparen :: signatureClosing
  | named _ => .lparen :: .rparen :: signatureClosing
  | params _ _ | paramType _ _ _ _ => .rparen :: signatureClosing
  | paramComma _ _ => .word "a" :: .word "Uint64" :: .rparen :: signatureClosing
  | paramName _ _ _ => .word "Uint64" :: .rparen :: signatureClosing
  | signature _ => signatureClosing
  | body _ => [.word "End", .word "Function"]
  | line _ _ reading => reading.closing ++ [.word "End", .word "Function"]
  | ended _ _ => [.word "Function"]

theorem lexical_closing (p : Place) : ∀ t ∈ p.closing, t.Lexical := by
  have hword : IsWord "f" ∧ IsWord "a" ∧ IsWord "Uint64" ∧ IsWord "End" ∧ IsWord "Function" := by
    decide
  cases p with
  | line r l reading =>
    rw [closing, List.forall_mem_append]
    exact ⟨reading.lexical_closing, by simp [Token.Lexical, hword]⟩
  | _ => simp [closing, signatureClosing, Token.Lexical, hword]

end Place

namespace State

/-- Whether some tokens lead from a state to a place where a text may end. -/
def Closes (s : State) (ts : List Token) : Prop :=
  ∃ rs leading, s.read ts = some ⟨rs, .outside leading⟩

variable {rs : List ParseTree.Routine}

/-- A token that fits at a place may come before those that close the next place. -/
theorem Closes.cons {p p' : Place} {t : Token} {ts : List Token} (hc : t.isComment = false)
    (hstep : p.step ⟨0, t⟩ = some p') (h : Closes ⟨rs, p'⟩ ts) : Closes ⟨rs, p⟩ (t :: ts) := by
  rwa [Closes, read_cons rs ts hc hstep]

/-- Where a line may end, the function may end. -/
theorem closes_end {p : Place} {r : ParseTree.Routine} (hp : p.Ready r) :
    Closes ⟨rs, p⟩ [.word "End", .word "Function"] := by
  have hend : Place.stepBody r ⟨0, .word "End"⟩ = some (.ended r []) := rfl
  exact .cons rfl (hp.step hend) ⟨rs ++ [r], [], rfl⟩

theorem closes_signature (h : Heading) : Closes ⟨rs, .signature h⟩ Place.signatureClosing := by
  have htype : (Place.signature h).step ⟨0, .word "Uint64"⟩ = some (.body (h.routine .uint64)) := rfl
  exact .cons rfl htype (closes_end rfl)

/-- **The parser never runs into a dead end**: from every regular state some tokens lead to a place
where a text may end. -/
theorem closes_closing {s : State} (hs : s.Regular) : s.Closes s.place.closing := by
  obtain ⟨rs, place⟩ := s
  -- parentheses around parameters, and a parameter, lead to the signature
  have hclose : ∀ h held n type,
      Closes ⟨rs, .paramType h held n type⟩ (.rparen :: Place.signatureClosing) :=
    fun h held n type => .cons rfl rfl (closes_signature _)
  have htype : ∀ h held n,
      Closes ⟨rs, .paramName h held n⟩ (.word "Uint64" :: .rparen :: Place.signatureClosing) :=
    fun h held n => .cons rfl rfl (hclose h held n .uint64)
  have hempty : ∀ h held, Closes ⟨rs, .params h held⟩ (.rparen :: Place.signatureClosing) :=
    fun h held => .cons rfl rfl (closes_signature _)
  have hopen : ∀ h, Closes ⟨rs, .named h⟩ (.lparen :: .rparen :: Place.signatureClosing) :=
    fun h => .cons rfl rfl (hempty h [])
  cases place with
  | outside leading => exact ⟨rs, leading, rfl⟩
  | opened cs => exact .cons rfl rfl (hopen ⟨"f", 0, [], cs⟩)
  | named h => exact hopen h
  | params h held => exact hempty h held
  | paramComma h held => exact .cons rfl rfl (htype h held "a")
  | paramName h held n => exact htype h held n
  | paramType h held n type => exact hclose h held n type
  | signature h => exact closes_signature h
  | body r => exact closes_end rfl
  | line r l reading =>
    obtain ⟨reading', s, hfold, hwhole⟩ := reading.exists_foldlM_closing
    have hfirst : reading = .start → ∀ t ∈ reading.closing.head?, t.endsLine = false := by
      rintro rfl
      exact nofun
    have hread := read_statement rs r l hs.place.2 hfirst hfold
    rw [Closes, Place.closing, read_append, hread]
    exact closes_end ⟨s, hwhole, rfl⟩
  | ended r leading => exact ⟨rs ++ [r], leading, rfl⟩

end State

end Grammar

end ContractBasic
