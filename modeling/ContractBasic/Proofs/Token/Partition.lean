/-
The partition of a text into tokens.

A text without a lexical fault is blanks and lexemes in turn, and its tokens stand where the lexemes
do.  There is one way only to divide a text like this, so that the tokens are known without the
lexer.

* `Cut` — a text divided into blanks and lexemes, with the offsets of the lexemes
* `cut_marks` — the tokens of a text without a fault divide it
* `Cut.marks_eq` — a text that can be divided has no fault, and its tokens are those of the division
* `partitions_iff` — the tokens of a text and its end are the one partition of the text
-/
import ContractBasic.Proofs.Token.Lexeme

namespace ContractBasic

/-! ### Offsets -/

namespace Text

theorem add_byteSize_cons (offset : Nat) (c : Char) (gap : List Char) :
    offset + c.utf8Size + byteSize gap = offset + byteSize (c :: gap) :=
  Nat.add_assoc offset c.utf8Size (byteSize gap)

theorem add_byteSize_append (offset : Nat) (gap lexeme rest : List Char) :
    offset + byteSize gap + byteSize lexeme + byteSize rest
      = offset + byteSize (gap ++ (lexeme ++ rest)) := by
  rw [byteSize_append, byteSize_append]
  omega

end Text

/-! ### Divided texts -/

/-- What the lexer finds in a text of so many bytes: the tokens in order, and behind them the end of
input. -/
def Lexing.marks (l : Lexing) (size : Nat) : List (Placed (Option Token)) :=
  l.tokens.map (fun t => ⟨t.offset, some t.item⟩) ++ [⟨size, none⟩]

theorem Lexing.marks_cons (t : Placed Token) (l : Lexing) (size : Nat) :
    Lexing.marks ⟨t :: l.tokens, l.fault⟩ size = ⟨t.offset, some t.item⟩ :: l.marks size := rfl

/-- Whether marks divide a text that stands at a byte offset: each token is marked where its lexeme
starts, there are only blanks before the first lexeme, between two lexemes and behind the last one,
and the end is marked behind these. -/
inductive Cut : Nat → List Char → List (Placed (Option Token)) → Prop where
  | ending {offset : Nat} {gap : List Char} (hgap : ∀ c ∈ gap, Text.isBlank c = true) :
      Cut offset gap [⟨offset + Text.byteSize gap, none⟩]
  | token {offset : Nat} {gap lexeme rest : List Char} {t : Token}
      {marks : List (Placed (Option Token))} (hgap : ∀ c ∈ gap, Text.isBlank c = true)
      (hlexeme : t.IsLexeme lexeme rest)
      (hrest : Cut (offset + Text.byteSize gap + Text.byteSize lexeme) rest marks) :
      Cut offset (gap ++ (lexeme ++ rest)) (⟨offset + Text.byteSize gap, some t⟩ :: marks)

/-- Blanks before a divided text belong to its first gap. -/
theorem Cut.cons_blank {offset : Nat} {c : Char} {cs : List Char}
    {marks : List (Placed (Option Token))} (hc : Text.isBlank c = true)
    (h : Cut (offset + c.utf8Size) cs marks) : Cut offset (c :: cs) marks := by
  have hgap : ∀ gap : List Char, (∀ d ∈ gap, Text.isBlank d = true) →
      ∀ d ∈ c :: gap, Text.isBlank d = true :=
    fun gap hgap => List.forall_mem_cons.mpr ⟨hc, hgap⟩
  cases h with
  | ending h =>
    rw [Text.add_byteSize_cons]
    exact .ending (hgap _ h)
  | token h hlexeme hrest =>
    rw [Text.add_byteSize_cons] at hrest ⊢
    exact .token (hgap _ h) hlexeme hrest

/-- **The tokens of a text without a fault divide it.** -/
theorem cut_marks {offset : Nat} {cs : List Char} (h : (lexFrom offset cs).fault = none) :
    Cut offset cs ((lexFrom offset cs).marks (offset + Text.byteSize cs)) := by
  fun_induction lexFrom offset cs with
  | case1 offset => exact .ending (List.forall_mem_nil _)
  | case2 offset c cs hblank ih =>
    rw [Text.byteSize, ← Nat.add_assoc]
    exact (ih h).cons_blank hblank
  | case3 => cases h
  | case4 offset c cs hblank token n hscan next later ih =>
    obtain ⟨tail, rest, rfl, rfl, hlexeme⟩ := isLexeme_of_scan hscan
    have hnext : next = offset + Text.byteSize (c :: tail) := by
      simp only [next, List.take_left, Text.byteSize, Nat.add_assoc]
    have hsize : next + Text.byteSize rest = offset + Text.byteSize (c :: (tail ++ rest)) := by
      rw [hnext, ← List.cons_append, Text.byteSize_append, Nat.add_assoc]
    have hcut := ih h
    rw [List.drop_left, hsize, hnext] at hcut
    rw [Lexing.marks_cons]
    simp only [later, List.drop_left, hnext]
    exact @Cut.token offset [] (c :: tail) rest token _ (List.forall_mem_nil _) hlexeme hcut

/-! ### Division is unique -/

/-- **A text that can be divided has no fault, and is divided by its tokens.** -/
theorem Cut.marks_eq {offset : Nat} {cs : List Char} {marks : List (Placed (Option Token))}
    (h : Cut offset cs marks) : (lexFrom offset cs).fault = none ∧
      marks = (lexFrom offset cs).marks (offset + Text.byteSize cs) := by
  induction h with
  | @ending offset gap hgap =>
    have hlex : lexFrom offset gap = ⟨[], none⟩ := by
      rw [← List.append_nil gap, lexFrom_blanks hgap, lexFrom]
    rw [hlex]
    exact ⟨rfl, rfl⟩
  | @token offset gap lexeme rest t marks hgap hlexeme hrest ih =>
    obtain ⟨c, tail, rfl, hblank, hscan⟩ := hlexeme.scan_eq_ok
    obtain ⟨hfault, hmarks⟩ := ih
    rw [lexFrom_blanks hgap, List.cons_append, lexFrom_of_scan hblank hscan]
    refine ⟨hfault, ?_⟩
    rw [hmarks, Text.add_byteSize_append]
    rfl

/-- Every mark of a divided text stands between two of its characters. -/
theorem Cut.boundary {offset : Nat} {cs : List Char} {marks : List (Placed (Option Token))}
    (h : Cut offset cs marks) : ∀ m ∈ marks,
      ∃ before after, cs = before ++ after ∧ m.offset = offset + Text.byteSize before := by
  induction h with
  | @ending offset gap hgap =>
    rintro m hm
    rw [List.mem_singleton.mp hm]
    exact ⟨gap, [], by simp, rfl⟩
  | @token offset gap lexeme rest t marks hgap hlexeme hrest ih =>
    intro m hm
    rcases List.mem_cons.mp hm with rfl | hm
    · exact ⟨gap, lexeme ++ rest, rfl, rfl⟩
    · obtain ⟨before, after, rfl, hoffset⟩ := ih m hm
      refine ⟨gap ++ (lexeme ++ before), after, by simp, ?_⟩
      rw [hoffset, Text.byteSize_append, Text.byteSize_append]
      omega

/-- The marks of a divided text stand at growing offsets. -/
theorem Cut.increasing {offset : Nat} {cs : List Char} {marks : List (Placed (Option Token))}
    (h : Cut offset cs marks) : (marks.map Placed.offset).Pairwise (· < ·) := by
  induction h with
  | ending => exact List.pairwise_singleton _ _
  | @token offset gap lexeme rest t marks hgap hlexeme hrest ih =>
    refine List.pairwise_cons.mpr ⟨?_, ih⟩
    intro o ho
    obtain ⟨m, hm, rfl⟩ := List.mem_map.mp ho
    obtain ⟨c, tail, rfl, -, -⟩ := hlexeme.scan_eq_ok
    obtain ⟨before, -, -, hoffset⟩ := hrest.boundary m hm
    have hpos := Text.byteSize_pos (List.cons_ne_nil c tail)
    show offset + Text.byteSize gap < m.offset
    omega

/-! ### Partitions -/

/-- Whether marks are a partition of a source text into tokens. -/
structure Partitions (source : List Char) (marks : List (Placed (Option Token))) : Prop where
  /-- There are only blanks and lexemes in the text, and each token is marked at its lexeme. -/
  cut : Cut 0 source marks
  /-- The end of input is marked once, behind all tokens and all bytes of the text. -/
  ending : ∃ tokens : List (Placed Token),
    marks = tokens.map (fun t => ⟨t.offset, some t.item⟩) ++ [⟨Text.byteSize source, none⟩]
  /-- Each mark stands behind the one before it. -/
  increasing : (marks.map Placed.offset).Pairwise (· < ·)
  /-- Each mark stands between two characters, or at an end of the text. -/
  boundary : ∀ m ∈ marks, ∃ before after,
    source = before ++ after ∧ m.offset = Text.byteSize before

/-- **The tokens of a text without a fault, and the end of input, are the one partition of the text;
a text with a fault has none.** -/
theorem partitions_iff (source : List Char) (marks : List (Placed (Option Token))) :
    Partitions source marks ↔
      (lex source).fault = none ∧ marks = (lex source).marks (Text.byteSize source) := by
  have hzero : 0 + Text.byteSize source = Text.byteSize source := Nat.zero_add _
  constructor
  · intro h
    have hmarks := h.cut.marks_eq
    rwa [hzero] at hmarks
  · rintro ⟨hfault, rfl⟩
    have hcut : Cut 0 source ((lex source).marks (Text.byteSize source)) := by
      have hcut := cut_marks hfault
      rwa [hzero] at hcut
    refine ⟨hcut, ⟨_, rfl⟩, hcut.increasing, fun m hm => ?_⟩
    obtain ⟨before, after, hsource, hoffset⟩ := hcut.boundary m hm
    exact ⟨before, after, hsource, by rw [hoffset, Nat.zero_add]⟩

-- offsets count bytes, of which `é` takes two; `<<=` and `&&&` are cut behind their second character
example : (lex "\"é\"<<=007&&&".toList).marks 13 =
    [⟨0, some (.text "é")⟩, ⟨4, some (.operator (.bitwise .shl))⟩, ⟨6, some .assign⟩,
      ⟨7, some (.number 7)⟩, ⟨10, some (.operator (.bitwise .and))⟩,
      ⟨12, some (.operator (.bitwise .and))⟩, ⟨13, none⟩] := by
  cbv

end ContractBasic
