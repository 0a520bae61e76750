/-
Where the parser finds fault.

The parser fails at the first token that can follow in no text.  What stands before the token can be
completed to a whole text, so nothing there is to blame; and what the parser says hangs on the tokens
up to there alone, so that nothing behind can save the text.  The end of the text counts as its last
token, and comments do not count.

* `Lexing.codeMarks` — the tokens of a text and its end, without comments
* `State.Refuses` — what is said of a token, or of the end of the text, that cannot follow
* `parse_eq_error_iff` — the parser fails exactly at the first mark that is refused
* `exists_parse_append` — what has been read can be completed
* `ParseTree.viablePrefix_of_ofSource_error` — where the parser finds fault with a text
-/
import ContractBasic.Proofs.Grammar.Completion
import ContractBasic.Proofs.Print.Row
import ContractBasic.Proofs.Text.Position
import ContractBasic.Proofs.Token.Prefix
import ContractBasic.Proofs.Verdict

namespace ContractBasic

open Grammar

/-! ### Marks of the code -/

/-- A token as it is marked in a text. -/
def Placed.mark (t : Placed Token) : Placed (Option Token) := ⟨t.offset, some t.item⟩

theorem Placed.mark_injective {t u : Placed Token} (h : t.mark = u.mark) : t = u := by
  obtain ⟨hoffset, hitem⟩ := Placed.mk.inj h
  exact congrArg₂ Placed.mk hoffset (Option.some.inj hitem)

/-- Whether a mark belongs to the code: it is the end of the text, or a token that is no comment. -/
def Placed.isCode (m : Placed (Option Token)) : Bool := m.item.all fun t => !t.isComment

/-- What the lexer finds in a text of so many bytes, without comments. -/
def Lexing.codeMarks (l : Lexing) (size : Nat) : List (Placed (Option Token)) :=
  (l.marks size).filter Placed.isCode

/-- The marks of tokens without comments are those of the code. -/
theorem map_item_filter_mark (ts : List (Placed Token)) :
    ((ts.map Placed.mark).filter Placed.isCode).map Placed.item = (codeTokens ts).map some := by
  induction ts with
  | nil => rfl
  | cons t ts ih =>
    obtain ⟨offset, item⟩ := t
    cases item with
    | comment raw => exact ih
    | _ => exact congrArg (List.cons _) ih

/-- What is marked before some mark are tokens. -/
theorem Lexing.exists_map_mark {ts : List (Placed Token)} {size : Nat}
    {earlier later : List (Placed (Option Token))} {m : Placed (Option Token)}
    (h : ts.map Placed.mark ++ [⟨size, none⟩] = earlier ++ m :: later) :
    ∃ us : List (Placed Token), earlier = us.map Placed.mark := by
  induction ts generalizing earlier with
  | nil =>
    cases earlier with
    | nil => exact ⟨[], rfl⟩
    | cons e earlier => exact absurd (congrArg List.length h) (by simp)
  | cons t ts ih =>
    cases earlier with
    | nil => exact ⟨[], rfl⟩
    | cons e earlier =>
      obtain ⟨rfl, hrest⟩ := List.cons.inj h
      obtain ⟨us, rfl⟩ := ih hrest
      exact ⟨t :: us, rfl⟩

/-- The first of several marks is the one looked for, or is read before it. -/
theorem Placed.cons_mark_eq {t : Placed Token} {marks later : List (Placed (Option Token))}
    {earlier : List (Placed Token)} {m : Placed (Option Token)}
    (h : t.mark :: marks = earlier.map mark ++ m :: later) :
    (earlier = [] ∧ t.mark = m) ∨
      ∃ more, earlier = t :: more ∧ marks = more.map mark ++ m :: later := by
  cases earlier with
  | nil => exact .inl ⟨rfl, (List.cons.inj h).1⟩
  | cons e more =>
    obtain ⟨hm, hmarks⟩ := List.cons.inj h
    exact .inr ⟨more, by rw [mark_injective hm], hmarks⟩

/-- A mark of the code stands among all marks, and what is marked before it in the code is what is
marked before it there. -/
theorem Lexing.exists_of_codeMarks_eq {l : Lexing} {size : Nat}
    {earlier later : List (Placed (Option Token))} {m : Placed (Option Token)}
    (h : l.codeMarks size = earlier ++ m :: later) : ∃ (ts : List (Placed Token)) (rest : _),
      l.marks size = ts.map Placed.mark ++ m :: rest ∧
        (ts.map Placed.mark).filter Placed.isCode = earlier := by
  -- comments may stand between the mark and the code before it
  obtain ⟨front, back, hmarks, rfl, hback⟩ := List.filter_eq_append_iff.mp h
  obtain ⟨remarks, rest, rfl, hremarks, -, -⟩ := List.filter_eq_cons_iff.mp hback
  rw [← List.append_assoc] at hmarks
  obtain ⟨ts, hts⟩ := exists_map_mark hmarks
  refine ⟨ts, rest, by rw [hmarks, hts], ?_⟩
  rw [← hts, List.filter_append, List.filter_eq_nil_iff.mpr hremarks, List.append_nil]

/-- A mark stands behind the tokens before it, and the position of its place has its offset. -/
theorem exists_cutBefore_of_marks {source : List Char} (hlex : (lex source).fault = none)
    {ts : List (Placed Token)} {m : Placed (Option Token)} {later : List (Placed (Option Token))}
    (h : (lex source).marks (Text.byteSize source) = ts.map Placed.mark ++ m :: later) :
    ∃ before after, source = before ++ after ∧ CutBefore after 0 before ts ∧
      m.offset = Text.byteSize before ∧ (Position.locate source m.offset).offset = m.offset := by
  have hcut : Cut 0 source (ts.map Placed.mark ++ m :: later) := by
    rw [← h, ← Nat.zero_add (Text.byteSize source)]
    exact cut_marks hlex
  obtain ⟨before, after, rfl, hbefore, hoffset⟩ := hcut.exists_cutBefore
  rw [Nat.zero_add] at hoffset
  exact ⟨before, after, rfl, hbefore, hoffset, by rw [hoffset, Position.offset_locate]⟩

/-! ### Refusals -/

namespace Grammar

namespace State

/-- Whether a state refuses what is marked, a token or the end of the text, and what is said then. -/
def Refuses (s : State) (m : Placed (Option Token)) (f : ParseFault) : Prop :=
  match m.item with
  | some t => s.step ⟨m.offset, t⟩ = none ∧ f = .mismatch s.place.expected (some t)
  | none => (∀ leading, s.place ≠ .outside leading) ∧ f = .mismatch s.place.expectedAtEnd none

/-- A comment is not refused. -/
theorem Refuses.isCode {s : State} {m : Placed (Option Token)} {f : ParseFault}
    (h : s.Refuses m f) : m.isCode = true := by
  obtain ⟨offset, found⟩ := m
  cases found with
  | none => rfl
  | some t =>
    cases t with
    | comment raw => cases h.1
    | _ => rfl

/-- What is refused does not hang on comments and offsets. -/
theorem Refuses.congr {s s' : State} {offset : Nat} {found : Option Token} {f : ParseFault}
    (h : s.Refuses ⟨offset, found⟩ f) (hforget : s'.forget .remarks = s.forget .remarks)
    (offset' : Nat) : s'.Refuses ⟨offset', found⟩ f := by
  have hplace : s'.place.forget .remarks = s.place.forget .remarks := congrArg State.place hforget
  cases found with
  | some t =>
    obtain ⟨hstep, rfl⟩ := h
    have ht : t.isComment = false := by
      cases t with
      | comment raw => cases hstep
      | _ => rfl
    constructor
    · -- both states step as what is left of them does
      have hold := step_forget .remarks s (t := ⟨offset, t⟩) ht
      have hnew := step_forget .remarks s' (t := ⟨offset', t⟩) ht
      rw [hstep, ← hforget] at hold
      exact Option.map_eq_none_iff.mp (hnew.symm.trans hold)
    · rw [← Place.expected_forget .remarks s.place, ← hplace, Place.expected_forget]
  | none =>
    obtain ⟨hend, rfl⟩ := h
    constructor
    · rintro leading hleading
      rw [hleading] at hplace
      cases hs : s.place with
      | outside leading' => exact hend leading' hs
      | _ =>
        rw [hs] at hplace
        cases hplace
    · rw [← Place.expectedAtEnd_forget .remarks s.place, ← hplace, Place.expectedAtEnd_forget]

/-- Where a text may not end, its end is refused. -/
theorem finish_eq_error_iff {s : State} {size : Nat} {f : Placed ParseFault} :
    s.finish size = .error f ↔ f.offset = size ∧ s.Refuses ⟨size, none⟩ f.item := by
  obtain ⟨routines, place⟩ := s
  obtain ⟨offset, item⟩ := f
  cases place <;> simp [finish, Refuses, eq_comm]

/-- A run fails, or cannot end, exactly at the first mark that is refused. -/
theorem run_finish_eq_error_iff {ts : List (Placed Token)} {s : State} {size : Nat}
    {f : Placed ParseFault} :
    (do let final ← s.run ts; final.finish size) = .error f ↔
      ∃ (earlier : List (Placed Token)) (found : Option Token)
        (later : List (Placed (Option Token))) (s' : State),
        ts.map Placed.mark ++ [⟨size, none⟩] = earlier.map Placed.mark ++ ⟨f.offset, found⟩ :: later ∧
          s.run earlier = .ok s' ∧ s'.Refuses ⟨f.offset, found⟩ f.item := by
  -- by induction on the tokens, for every state: each token makes the same of the run and of the marks
  induction ts generalizing s with
  | nil =>
    -- only the end is marked, and only `finish` can refuse it
    change s.finish size = .error f ↔ _
    rw [finish_eq_error_iff]
    constructor
    · rintro ⟨rfl, hrefuses⟩
      exact ⟨[], none, [], s, rfl, rfl, hrefuses⟩
    · rintro ⟨earlier, found, later, s', hmarks, hrun, hrefuses⟩
      cases earlier with
      | cons e earlier => exact absurd (congrArg List.length hmarks) (by simp)
      | nil =>
        cases hrun
        obtain ⟨hm, -⟩ := List.cons.inj hmarks
        obtain ⟨hsize, rfl⟩ := Placed.mk.inj hm
        rw [← hsize] at hrefuses
        exact ⟨hsize.symm, hrefuses⟩
  | cons t ts ih =>
    cases hstep : s.step t with
    | none =>
      -- the token is refused, so the run stops here and no later mark is reached
      rw [run, hstep]
      constructor
      · rintro ⟨⟩
        exact ⟨[], some t.item, _, s, rfl, rfl, hstep, rfl⟩
      · rintro ⟨earlier, found, later, s', hmarks, hrun, hrefuses⟩
        rcases Placed.cons_mark_eq hmarks with ⟨rfl, hm⟩ | ⟨more, rfl, -⟩
        · cases hrun
          obtain ⟨hoffset, rfl⟩ := Placed.mk.inj hm
          obtain ⟨offset, item⟩ := f
          cases hoffset
          obtain rfl : item = _ := hrefuses.2
          rfl
        · -- the run up to the refused mark would pass the token
          rw [run, hstep] at hrun
          cases hrun
    | some s₁ =>
      -- the token is taken, so whatever is refused is refused in the run behind it
      rw [run, hstep]
      change (do let final ← s₁.run ts; final.finish size) = .error f ↔ _
      rw [ih]
      constructor
      · rintro ⟨earlier, found, later, s', hmarks, hrun, hrefuses⟩
        refine ⟨t :: earlier, found, later, s', congrArg (List.cons t.mark) hmarks, ?_, hrefuses⟩
        rw [run, hstep]
        exact hrun
      · rintro ⟨earlier, found, later, s', hmarks, hrun, hrefuses⟩
        rcases Placed.cons_mark_eq hmarks with ⟨rfl, hm⟩ | ⟨more, rfl, hrest⟩
        · -- the token is not refused
          cases hrun
          obtain ⟨hoffset, rfl⟩ := Placed.mk.inj hm
          have hnone := hrefuses.1
          rw [← hoffset, hstep] at hnone
          cases hnone
        · rw [run, hstep] at hrun
          exact ⟨more, found, later, s', hrest, hrun, hrefuses⟩

/-- A run over the same code leads to the same place, but for comments and offsets. -/
theorem exists_run_of_codeTokens_eq {ts ts' : List (Placed Token)} {s : State}
    (h : start.run ts = .ok s) (hcode : codeTokens ts' = codeTokens ts) :
    ∃ s', start.run ts' = .ok s' ∧ s'.forget .remarks = s.forget .remarks := by
  -- without comments and offsets the two runs are one
  have hold := run_forget .remarks start ts
  have hnew := run_forget .remarks start ts'
  rw [Forgetting.filterMap_remarks] at hold hnew
  rw [hcode, hold, h] at hnew
  cases hrun : start.run ts' with
  | error f =>
    rw [hrun] at hnew
    cases hnew
  | ok s' =>
    rw [hrun] at hnew
    exact ⟨s', rfl, (Except.ok.inj hnew).symm⟩

end State

end Grammar

/-- **The parser fails exactly at the first mark that is refused.** -/
theorem parse_eq_error_iff {source : List Char} (hlex : (lex source).fault = none)
    {f : Placed ParseFault} : parse source = .error f ↔
      ∃ (earlier : List (Placed Token)) (found : Option Token)
        (later : List (Placed (Option Token))) (s : State),
        (lex source).marks (Text.byteSize source)
            = earlier.map Placed.mark ++ ⟨f.offset, found⟩ :: later ∧
          State.start.run earlier = .ok s ∧ s.Refuses ⟨f.offset, found⟩ f.item := by
  have hparse : parse source
      = (do let final ← State.start.run (lex source).tokens; final.finish (Text.byteSize source)) := by
    unfold parse
    split
    · rename_i hfault
      rw [hfault] at hlex
      cases hlex
    · rename_i hfault
      rw [hfault]
  rw [hparse, State.run_finish_eq_error_iff]
  rfl

/-! ### Completions -/

namespace Piece

/-- Tokens in lines of their own. -/
def inLines (ts : List Token) : List Piece := ts.flatMap fun t => [token t, newline]

theorem legible_inLines {ts : List Token} (h : ∀ t ∈ ts, t.Lexical) : Legible (inLines ts) := by
  induction ts with
  | nil => trivial
  | cons t ts ih =>
    obtain ⟨ht, hts⟩ := List.forall_mem_cons.mp h
    refine ⟨ht, t.endsBefore_of_newline ?_, (legible_newline _).mpr (ih hts)⟩
    rintro c ⟨⟩
    rfl

theorem tokens_inLines (ts : List Token) : tokens (inLines ts) = ts := by
  induction ts with
  | nil => rfl
  | cons t ts ih => exact congrArg (List.cons t) ih

end Piece

/-- Behind tokens that the parser takes, some more tokens lead to where a text may end. -/
theorem Grammar.State.exists_closes {ts : List (Placed Token)} {s : State}
    (h : State.start.run ts = .ok s) :
    ∃ zs, (∀ t ∈ zs, t.Lexical) ∧ State.start.Closes (ts.map Placed.item ++ zs) := by
  -- the parser reads the bare tokens as well, so that what is left of its state is regular
  have hbare := run_forget .offsets start ts
  rw [forget_start, Forgetting.filterMap_offsets, h] at hbare
  have hregular : (s.forget .offsets).Regular := (run_signs regular_start .nil hbare).1
  have hread := toOption_run start (ts.map Placed.item)
  rw [hbare] at hread
  obtain ⟨rs, leading, hclose⟩ := closes_closing hregular
  refine ⟨(s.forget .offsets).place.closing, Place.lexical_closing _, rs, leading, ?_⟩
  rw [read_append, ← hread]
  exact hclose

/-- **What has been read can be completed**: behind a part of a text that is cut into tokens which the
parser takes, a line feed and some more text make a whole text. -/
theorem exists_parse_append {before after : List Char} {tokens : List (Placed Token)} {s : State}
    (hcut : CutBefore after 0 before tokens) (hrun : State.start.run tokens = .ok s) :
    ∃ z tree, parse (before ++ '\n' :: z) = .ok tree := by
  obtain ⟨zs, hzs, rs, leading, hclose⟩ := State.exists_closes hrun
  let z := (Piece.inLines zs).flatMap Piece.chars
  obtain ⟨hfault, htokens⟩ := Piece.lexFrom_of_legible
    ((Piece.legible_newline _).mpr (Piece.legible_inLines hzs)) (0 + Text.byteSize before)
  rw [Piece.tokens_newline, Piece.tokens_inLines] at htokens
  have hz : (Piece.newline :: Piece.inLines zs).flatMap Piece.chars = '\n' :: z := rfl
  rw [hz] at hfault htokens
  -- the line feed ends the last token, whatever stood behind it before
  have hline : CutBefore ('\n' :: z) 0 before tokens := hcut.congr_rest (by simp)
  have hlex := hline.lexFrom_append
  have hread : State.start.read ((lex (before ++ '\n' :: z)).tokens.map Placed.item)
      = some ⟨rs, .outside leading⟩ := by
    rw [lex, hlex, List.map_append, htokens, hclose]
  obtain ⟨tree, htree, -⟩ := exists_parse_of_read (by rw [lex, hlex, hfault]) hread rfl
  exact ⟨z, tree, htree⟩

/-! ### Where the parser finds fault -/

/-- The error that a text is refused with is the fault that the parser finds. -/
theorem exists_parse_of_ofSource_error {source : String} {p : Position} {complaint : Complaint}
    (h : ParseTree.ofSource source = .error (.grammar p complaint)) :
    ∃ f, parse source.toList = .error f ∧ p = .locate source.toList f.offset ∧
      complaint = .fault f.item := by
  rw [ParseTree.ofSource] at h
  cases hp : parse source.toList with
  | ok tree =>
    rw [hp] at h
    cases h
  | error f =>
    rw [hp] at h
    cases h
    exact ⟨f, rfl, rfl, rfl⟩

namespace ParseTree

/-- Whether a text is refused with a given error can be found out by reading it. -/
theorem ofSource_eq_error_iff {source : String} {e : Error} : ofSource source = .error e ↔
    (match ofSource source with
      | .error e' => decide (e' = e)
      | .ok _ => false) = true := by
  cases ofSource source with
  | error e' => simp
  | ok tree => simp

/-- **The parser finds fault with the first token that can follow in no text.**  The token is none of the
comments, and may be the end of the text; the text before it can be completed behind a line feed; and
with the same code up to there and this token behind it, every text is refused at the token with the same
complaint. -/
theorem viablePrefix_of_ofSource_error {source : String} {p : Position} {complaint : Complaint}
    (hlex : (lex source.toList).fault = none)
    (h : ofSource source = .error (.grammar p complaint)) :
    ∃ before after earlier found later, source.toList = before ++ after ∧
      p.offset = Text.byteSize before ∧
      (lex source.toList).codeMarks (Text.byteSize source.toList)
        = earlier ++ ⟨p.offset, found⟩ :: later ∧
      (∃ z tree, ofSource (String.ofList (before ++ '\n' :: z)) = .ok tree) ∧
      ∀ source' earlier' offset' later', (lex source'.toList).fault = none →
        (lex source'.toList).codeMarks (Text.byteSize source'.toList)
          = earlier' ++ ⟨offset', found⟩ :: later' →
        earlier'.map Placed.item = earlier.map Placed.item →
        ∃ p', p'.offset = offset' ∧ ofSource source' = .error (.grammar p' complaint) := by
  obtain ⟨f, hparse, rfl, rfl⟩ := exists_parse_of_ofSource_error h
  obtain ⟨tokens, found, later, s, hmarks, hrun, hrefuses⟩ := (parse_eq_error_iff hlex).mp hparse
  obtain ⟨before, after, hsource, hcut, hoffset, hposition⟩ := exists_cutBefore_of_marks hlex hmarks
  refine ⟨before, after, (tokens.map Placed.mark).filter Placed.isCode, found,
    later.filter Placed.isCode, hsource, hposition.trans hoffset, ?_, ?_, ?_⟩
  · rw [Lexing.codeMarks, hmarks, hposition, List.filter_append, List.filter_cons_of_pos hrefuses.isCode]
  · -- the run up to the refused mark succeeds, so what it has read can be completed
    obtain ⟨z, tree, htree⟩ := exists_parse_append hcut hrun
    exact ⟨z, tree, ofSource_eq_ok.mpr (by rw [String.toList_ofList, htree])⟩
  · -- over the same code another text leads to a state that differs in comments and offsets alone
    intro source' earlier' offset' later' hlex' hmarks' hsame
    obtain ⟨tokens', rest, hall', rfl⟩ := Lexing.exists_of_codeMarks_eq hmarks'
    rw [map_item_filter_mark, map_item_filter_mark] at hsame
    have hcode : codeTokens tokens' = codeTokens tokens :=
      List.map_injective_iff.mpr (fun _ _ => Option.some.inj) hsame
    obtain ⟨s', hrun', hforget⟩ := State.exists_run_of_codeTokens_eq hrun hcode
    obtain ⟨-, -, -, -, -, hposition'⟩ := exists_cutBefore_of_marks hlex' hall'
    have hparse' : parse source'.toList = .error ⟨offset', f.item⟩ :=
      (parse_eq_error_iff hlex').mpr
        ⟨tokens', found, rest, s', hall', hrun', hrefuses.congr hforget offset'⟩
    refine ⟨.locate source'.toList offset', hposition', ?_⟩
    rw [ofSource, hparse']
    rfl

/-- A parameter list that is closed behind a comma and a comment. -/
def strayComma : String := "Function F(a Uint64, //)\n) Uint64 /*é*/ 1"

theorem viablePrefix_of_ofSource_error_strayComma :
    (lex strayComma.toList).fault = none ∧
    ofSource strayComma
      = .error (.grammar ⟨25, 2, 1⟩ (.fault (.mismatch .identifier (some .rparen)))) ∧
    ∃ before after earlier found later, strayComma.toList = before ++ after ∧
      25 = Text.byteSize before ∧
      (lex strayComma.toList).codeMarks (Text.byteSize strayComma.toList)
        = earlier ++ ⟨25, found⟩ :: later ∧
      (∃ z tree, ofSource (String.ofList (before ++ '\n' :: z)) = .ok tree) ∧
      ∀ source' earlier' offset' later', (lex source'.toList).fault = none →
        (lex source'.toList).codeMarks (Text.byteSize source'.toList)
          = earlier' ++ ⟨offset', found⟩ :: later' →
        earlier'.map Placed.item = earlier.map Placed.item →
        ∃ p', p'.offset = offset' ∧ ofSource source'
          = .error (.grammar p' (.fault (.mismatch .identifier (some .rparen)))) := by
  have hlex : (lex strayComma.toList).fault = none := by decide +kernel
  have herror : ofSource strayComma
      = .error (.grammar ⟨25, 2, 1⟩ (.fault (.mismatch .identifier (some .rparen)))) :=
    ofSource_eq_error_iff.mpr (by decide +kernel)
  exact ⟨hlex, herror, viablePrefix_of_ofSource_error hlex herror⟩

end ParseTree

end ContractBasic
