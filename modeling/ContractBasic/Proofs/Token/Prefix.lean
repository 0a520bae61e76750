/-
First parts of texts and their tokens.

The lexer looks ahead by one character at most to see that a token is over, and never back.  So it can
be stopped behind any token: what it has read is cut into tokens, and it goes on as if a new text
started there.  The part that was read has the same tokens when it stands alone, or before a line feed.

* `CutBefore` — a first part of a text, divided into blanks and lexemes in the presence of the rest
* `CutBefore.lexFrom_append` — the tokens of the whole text are those of the part and of the rest
* `exists_cutBefore` — the lexer can be stopped behind any of its tokens
* `Cut.exists_cutBefore` — every mark of a text stands behind such a part
* `CutBefore.congr_rest` — the part has the same tokens before a line feed and at the end of a text
-/
import ContractBasic.Proofs.Token.Partition

namespace ContractBasic

/-- Every token is over before a line feed, and at the end of a text. -/
theorem Token.endsBefore_of_newline (t : Token) {next : Option Char} (h : ∀ c ∈ next, c = '\n') :
    t.EndsBefore next := by
  have hne : ∀ c : Char, c ≠ '\n' → next ≠ some c := fun c hc hnext => hc (h c hnext)
  cases t with
  | word w =>
    intro c hc
    rw [h c hc]
    decide
  | number n =>
    intro c hc
    rw [h c hc]
    decide
  | comment raw => exact fun _ => h
  | assign => exact hne '=' (by decide)
  | operator o =>
    rcases o with o | o | o <;> cases o <;> simp [EndsBefore, hne]
  | _ => trivial

/-! ### Parts of texts -/

/-- Whether the first part of a text, at a byte offset and with `after` behind it, is cut into tokens:
it is blanks and lexemes in turn, each lexeme one in the whole text. -/
inductive CutBefore (after : List Char) : Nat → List Char → List (Placed Token) → Prop where
  | blanks {offset : Nat} {gap : List Char} (hgap : ∀ c ∈ gap, Text.isBlank c = true) :
      CutBefore after offset gap []
  | token {offset : Nat} {gap lexeme rest : List Char} {t : Token} {tokens : List (Placed Token)}
      (hgap : ∀ c ∈ gap, Text.isBlank c = true) (hlexeme : t.IsLexeme lexeme (rest ++ after))
      (hrest : CutBefore after (offset + Text.byteSize gap + Text.byteSize lexeme) rest tokens) :
      CutBefore after offset (gap ++ (lexeme ++ rest))
        (⟨offset + Text.byteSize gap, t⟩ :: tokens)

namespace CutBefore

variable {after : List Char} {offset : Nat} {before : List Char} {tokens : List (Placed Token)}

theorem cons_blank {c : Char} (hc : Text.isBlank c = true)
    (h : CutBefore after (offset + c.utf8Size) before tokens) :
    CutBefore after offset (c :: before) tokens := by
  cases h with
  | blanks hgap => exact .blanks (List.forall_mem_cons.mpr ⟨hc, hgap⟩)
  | token hgap hlexeme hrest =>
    rw [Text.add_byteSize_cons] at hrest ⊢
    exact .token (List.forall_mem_cons.mpr ⟨hc, hgap⟩) hlexeme hrest

/-- The tokens of a text are those of a part that is cut and those of the rest. -/
theorem lexFrom_append (h : CutBefore after offset before tokens) :
    lexFrom offset (before ++ after) =
      ⟨tokens ++ (lexFrom (offset + Text.byteSize before) after).tokens,
        (lexFrom (offset + Text.byteSize before) after).fault⟩ := by
  induction h with
  | blanks hgap => rw [lexFrom_blanks hgap, List.nil_append]
  | @token offset gap lexeme rest t tokens hgap hlexeme hrest ih =>
    obtain ⟨c, tail, rfl, hblank, hscan⟩ := hlexeme.scan_eq_ok
    rw [List.append_assoc, lexFrom_blanks hgap, List.append_assoc, List.cons_append,
      lexFrom_of_scan hblank hscan, ih, Text.add_byteSize_append]
    rfl

/-- A part that is cut stays so if a line feed or nothing comes behind it. -/
theorem congr_rest (h : CutBefore after offset before tokens) {after' : List Char}
    (hafter : ∀ c ∈ after'.head?, c = '\n') : CutBefore after' offset before tokens := by
  induction h with
  | blanks hgap => exact .blanks hgap
  | @token offset gap lexeme rest t tokens hgap hlexeme hrest ih =>
    refine .token hgap (hlexeme.congr_rest fun hold => ?_) ih
    -- the rest that follows is the same, but behind the last lexeme
    cases rest with
    | nil => exact t.endsBefore_of_newline hafter
    | cons c rest => exact hold

/-- A part that is cut has its tokens when it stands alone. -/
theorem lexFrom_eq (h : CutBefore after offset before tokens) :
    lexFrom offset before = ⟨tokens, none⟩ := by
  have halone : CutBefore [] offset before tokens := h.congr_rest nofun
  have hlex := halone.lexFrom_append
  simpa [lexFrom] using hlex

end CutBefore

/-! ### Where the lexer can be stopped -/

/-- **The lexer can be stopped behind any of its tokens**: the text up to there is cut into the tokens
read so far, and it goes on with the rest, which does not start with a blank. -/
theorem exists_cutBefore {offset : Nat} {cs : List Char} {earlier later : List (Placed Token)}
    (h : (lexFrom offset cs).tokens = earlier ++ later) :
    ∃ before after, cs = before ++ after ∧ (∀ c ∈ after.head?, Text.isBlank c = false) ∧
      CutBefore after offset before earlier ∧
      lexFrom (offset + Text.byteSize before) after = ⟨later, (lexFrom offset cs).fault⟩ := by
  -- by the steps of the lexer; it can be stopped at once, or behind the token that is read first
  fun_induction lexFrom offset cs generalizing earlier with
  | case1 offset =>
    obtain ⟨rfl, rfl⟩ := List.append_eq_nil_iff.mp h.symm
    exact ⟨[], [], rfl, by simp, .blanks (List.forall_mem_nil _), by rw [lexFrom]⟩
  | case2 offset c cs hblank ih =>
    obtain ⟨before, after, rfl, hafter, hcut, hlex⟩ := ih h
    refine ⟨c :: before, after, rfl, hafter, hcut.cons_blank hblank, ?_⟩
    rw [← hlex, Text.byteSize, Nat.add_assoc]
  | case3 offset c cs hblank fault hscan =>
    obtain ⟨rfl, rfl⟩ := List.append_eq_nil_iff.mp h.symm
    refine ⟨[], c :: cs, rfl, by simpa using hblank, .blanks (List.forall_mem_nil _), ?_⟩
    rw [Text.byteSize, Nat.add_zero, lexFrom, if_neg hblank, hscan]
  | case4 offset c cs hblank token n hscan next more =>
    rename_i ih
    cases earlier with
    | nil =>
      refine ⟨[], c :: cs, rfl, by simpa using hblank, .blanks (List.forall_mem_nil _), ?_⟩
      rw [Text.byteSize, Nat.add_zero, lexFrom, if_neg hblank, hscan]
      exact congrArg₂ Lexing.mk h rfl
    | cons t earlier =>
      obtain ⟨rfl, hmore⟩ := List.cons.inj h
      obtain ⟨before, after, hcs, hafter, hcut, hlex⟩ := ih hmore
      obtain ⟨tail, rest, rfl, rfl, hlexeme⟩ := isLexeme_of_scan hscan
      -- the offset behind the token is the one that the rest was read from
      have hnext : next = offset + Text.byteSize (c :: tail) := by
        simp only [next, List.take_left, Text.byteSize, Nat.add_assoc]
      obtain rfl : rest = before ++ after := by rw [← hcs, List.drop_left]
      refine ⟨c :: (tail ++ before), after, by simp, hafter, ?_, ?_⟩
      · rw [hnext] at hcut
        exact @CutBefore.token after offset [] (c :: tail) before token earlier
          (List.forall_mem_nil _) hlexeme hcut
      · rw [← List.cons_append, Text.byteSize_append, ← Nat.add_assoc, ← hnext]
        exact hlex

/-- The text up to any mark is cut into the tokens that are marked before it. -/
theorem Cut.exists_cutBefore {offset : Nat} {cs : List Char} {earlier : List (Placed Token)}
    {m : Placed (Option Token)} {later : List (Placed (Option Token))}
    (h : Cut offset cs (earlier.map (fun t => ⟨t.offset, some t.item⟩) ++ m :: later)) :
    ∃ before after, cs = before ++ after ∧ CutBefore after offset before earlier ∧
      m.offset = offset + Text.byteSize before := by
  induction earlier generalizing offset cs with
  | nil =>
    cases h with
    | ending hgap => exact ⟨cs, [], (List.append_nil cs).symm, .blanks hgap, rfl⟩
    | @token _ gap lexeme rest t _ hgap hlexeme hrest =>
      exact ⟨gap, lexeme ++ rest, rfl, .blanks hgap, rfl⟩
  | cons e earlier ih =>
    obtain ⟨o, item⟩ := e
    cases h with
    | @token _ gap lexeme rest _ _ hgap hlexeme hrest =>
      obtain ⟨before, after, rfl, hcut, hoffset⟩ := ih hrest
      refine ⟨gap ++ (lexeme ++ before), after, by simp, .token hgap hlexeme hcut, ?_⟩
      rw [hoffset, Text.byteSize_append, Text.byteSize_append]
      omega

end ContractBasic
