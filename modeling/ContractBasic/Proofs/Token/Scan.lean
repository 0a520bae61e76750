/-
Tokens and their spellings.

What the lexer does at a place is told by the first characters there.  A token that it can produce is
read back from its spelling, if nothing behind it continues it.

* `Token.Lexical` — the tokens that the lexer can produce
* `Token.EndsBefore` — the characters before which a token is over
* `start_cases` — what can start at a place, with an equation of `scan` for each case
* `scan_spelling` — a spelling is read as its token
* `lexFrom_blanks`, `lexFrom_of_scan` — the tokens of a text that starts with blanks or a token
-/
import ContractBasic.Proofs.Text.Numeral
import ContractBasic.Token.Lexer
import Mathlib.Data.List.TakeWhile

namespace ContractBasic

/-! ### Words and comments -/

/-- Whether a text is a word of the language: a letter, then letters, digits and underscores. -/
def IsWord (w : String) : Prop :=
  w.toList.head?.any Char.isAlpha = true ∧ ∀ c ∈ w.toList, isWordChar c = true

instance : DecidablePred IsWord := fun w =>
  decidable_of_iff (w.toList.head?.any Char.isAlpha = true ∧ w.toList.all isWordChar = true)
    (and_congr_right fun _ => List.all_eq_true)

/-- Whether a text is a line comment without its line feed. -/
def IsLineComment (raw : String) : Prop :=
  ∃ cs, raw.toList = '/' :: '/' :: cs ∧ '\n' ∉ cs

/-- Whether a text is a block comment that is closed at its end and not before. -/
def IsBlockComment (raw : String) : Prop :=
  ∃ cs, raw.toList = '/' :: '*' :: cs ∧ blockEnd? cs = some cs.length

namespace Token

/-- Whether the lexer can produce a token. -/
def Lexical : Token → Prop
  | word w => IsWord w
  | text s => '"' ∉ s.toList
  | comment raw => IsLineComment raw ∨ IsBlockComment raw
  | _ => True

/-- Whether a token is over before a character, or at the end of the text. -/
def EndsBefore (t : Token) (next : Option Char) : Prop :=
  match t with
  | word _ => ∀ c ∈ next, isWordChar c = false
  | number _ => ∀ c ∈ next, c.isDigit = false
  | comment raw => IsLineComment raw → ∀ c ∈ next, c = '\n'
  | assign => next ≠ some '='
  | operator (.arithmetic .div) => next ≠ some '/' ∧ next ≠ some '*'
  | operator (.bitwise .and) => next ≠ some '&'
  | operator (.bitwise .or) => next ≠ some '|'
  | operator (.bitwise .not) => next ≠ some '='
  | operator (.comparison .lt) => next ≠ some '=' ∧ next ≠ some '<'
  | operator (.comparison .gt) => next ≠ some '=' ∧ next ≠ some '>'
  | _ => True

end Token

/-! ### Characters -/

-- The tests of characters are opened by what they are, not by their equations: these would be new
-- constants wherever the library does not have them yet.

theorem toNat_of_isUpper {c : Char} (h : c.isUpper = true) : 65 ≤ c.toNat ∧ c.toNat ≤ 90 :=
  of_decide_eq_true h

theorem toNat_of_isLower {c : Char} (h : c.isLower = true) : 97 ≤ c.toNat ∧ c.toNat ≤ 122 :=
  have h := Bool.and_eq_true_iff.mp h
  ⟨of_decide_eq_true h.1, of_decide_eq_true h.2⟩

theorem toNat_of_isDigit {c : Char} (h : c.isDigit = true) : 48 ≤ c.toNat ∧ c.toNat ≤ 57 :=
  have h := Bool.and_eq_true_iff.mp h
  ⟨of_decide_eq_true h.1, of_decide_eq_true h.2⟩

theorem toNat_of_isAlpha {c : Char} (h : c.isAlpha = true) :
    65 ≤ c.toNat ∧ c.toNat ≤ 90 ∨ 97 ≤ c.toNat ∧ c.toNat ≤ 122 :=
  (Bool.or_eq_true_iff.mp h).imp toNat_of_isUpper toNat_of_isLower

theorem toNat_of_isAlphanum {c : Char} (h : c.isAlphanum = true) :
    (65 ≤ c.toNat ∧ c.toNat ≤ 90 ∨ 97 ≤ c.toNat ∧ c.toNat ≤ 122) ∨
      48 ≤ c.toNat ∧ c.toNat ≤ 57 :=
  (Bool.or_eq_true_iff.mp h).imp toNat_of_isAlpha toNat_of_isDigit

/-- Letters and digits are not blank. -/
theorem isBlank_of_isAlphanum {c : Char} (h : c.isAlphanum = true) : Text.isBlank c = false := by
  have hc := toNat_of_isAlphanum h
  simp only [Text.isBlank, Text.blankRanges, List.any_cons, List.any_nil, Bool.or_false,
    Bool.or_eq_false_iff, Bool.and_eq_false_iff, decide_eq_false_iff_not, Nat.not_le]
  omega

theorem isAlphanum_of_isAlpha {c : Char} (h : c.isAlpha = true) : c.isAlphanum = true :=
  Bool.or_eq_true_iff.mpr (.inl h)

theorem isAlphanum_of_isDigit {c : Char} (h : c.isDigit = true) : c.isAlphanum = true :=
  Bool.or_eq_true_iff.mpr (.inr h)

theorem isWordChar_of_isAlphanum {c : Char} (h : c.isAlphanum = true) : isWordChar c = true := by
  rw [isWordChar, h, Bool.true_or]

theorem isDigit_of_isAlpha {c : Char} (h : c.isAlpha = true) : c.isDigit = false := by
  rw [Bool.eq_false_iff]
  intro hdigit
  have halpha := toNat_of_isAlpha h
  have hdigit := toNat_of_isDigit hdigit
  omega

/-- A character that is no letter and no digit is not one that is. -/
theorem ne_of_isAlphanum {c d : Char} (h : c.isAlphanum = true) (hd : d.isAlphanum = false) :
    c ≠ d := by
  rintro rfl
  rw [h] at hd
  cases hd

theorem isWord_iff {w : String} : IsWord w ↔
    ∃ c cs, w.toList = c :: cs ∧ c.isAlpha = true ∧ ∀ d ∈ cs, isWordChar d = true := by
  unfold IsWord
  cases w.toList with
  | nil => simp
  | cons c cs =>
    have hc : c.isAlpha = true → isWordChar c = true :=
      fun h => isWordChar_of_isAlphanum (isAlphanum_of_isAlpha h)
    simp only [List.head?_cons, Option.any_some, List.forall_mem_cons, List.cons.injEq]
    constructor
    · rintro ⟨halpha, -, hcs⟩
      exact ⟨c, cs, ⟨rfl, rfl⟩, halpha, hcs⟩
    · rintro ⟨c', cs', ⟨rfl, rfl⟩, halpha, hcs⟩
      exact ⟨halpha, hc halpha, hcs⟩

/-- The longest start of a text with a property, where the property ends. -/
theorem takeWhile_append_of_stop {p : Char → Bool} {cs rest : List Char}
    (hcs : ∀ c ∈ cs, p c = true) (hrest : ∀ c ∈ rest.head?, p c = false) :
    (cs ++ rest).takeWhile p = cs := by
  have hstop : rest.takeWhile p = [] := by
    cases rest with
    | nil => rfl
    | cons c rest => simp [hrest c rfl]
  rw [List.takeWhile_append_of_pos hcs, hstop, List.append_nil]

/-! ### Ends of comments and texts -/

/-- A text holds the end of a block comment exactly if the search for one finds it. -/
theorem blockEnd?_eq_none_iff {cs : List Char} :
    blockEnd? cs = none ↔ ¬ ['*', '/'] <:+: cs := by
  fun_induction blockEnd? cs with
  | case1 cs => simpa using List.IsPrefix.isInfix (by simp)
  | case2 c cs hc ih =>
    rw [Option.map_eq_none_iff, ih, List.infix_cons_iff, not_or]
    refine (and_iff_right ?_).symm
    intro hstart
    obtain ⟨tail, htail⟩ := hstart
    obtain ⟨rfl, rfl⟩ := List.cons.inj htail
    exact hc tail rfl rfl
  | case3 => simp

/-- Whether a text before a star starts with the end of a block comment, its first characters say,
whatever is behind the star. -/
theorem blockEnd_prefix_cons_iff {c : Char} {body rest : List Char} :
    ['*', '/'] <+: c :: (body ++ ['*']) ↔ c = '*' ∧ (body ++ '*' :: rest).head? = some '/' := by
  cases body with
  | nil => simp [List.cons_prefix_cons]
  | cons d body => simp [List.cons_prefix_cons, eq_comm]

/-- The search for the end of a block comment finds the first one: none is over sooner. -/
theorem blockEnd?_eq_some_iff {cs : List Char} {n : Nat} :
    blockEnd? cs = some n ↔ ∃ body rest, cs = body ++ '*' :: '/' :: rest ∧ n = body.length + 2 ∧
      ¬ ['*', '/'] <:+: body ++ ['*'] := by
  constructor
  · intro h
    fun_induction blockEnd? cs generalizing n with
    | case1 cs =>
      cases h
      exact ⟨[], cs, rfl, rfl, by simp [List.infix_cons_iff]⟩
    | case2 c cs hc ih =>
      obtain ⟨m, hm, rfl⟩ := Option.map_eq_some_iff.mp h
      obtain ⟨body, rest, rfl, rfl, hbody⟩ := ih hm
      refine ⟨c :: body, rest, rfl, rfl, ?_⟩
      rw [List.cons_append, List.infix_cons_iff, not_or]
      -- an end that starts here would have been found here
      refine ⟨fun hstart => ?_, hbody⟩
      obtain ⟨rfl, hhead⟩ := blockEnd_prefix_cons_iff.mp hstart
      obtain ⟨tail, htail⟩ := List.head?_eq_some_iff.mp hhead
      exact hc tail rfl htail
    | case3 => cases h
  · rintro ⟨body, rest, rfl, rfl, hbody⟩
    induction body with
    | nil => rfl
    | cons c body ih =>
      rw [List.cons_append, List.infix_cons_iff, not_or] at hbody
      rw [List.cons_append, blockEnd?, ih hbody.2]
      · rfl
      · rintro tail rfl htail
        exact hbody.1 (blockEnd_prefix_cons_iff.mpr ⟨rfl, by rw [htail, List.head?_cons]⟩)

theorem blockEnd?_append {cs : List Char} {n : Nat} (rest : List Char)
    (h : blockEnd? cs = some n) : blockEnd? (cs ++ rest) = some n := by
  obtain ⟨body, later, rfl, rfl, hbody⟩ := blockEnd?_eq_some_iff.mp h
  exact blockEnd?_eq_some_iff.mpr ⟨body, later ++ rest, by simp, rfl, hbody⟩

/-- The search for the end of a text finds the first quote. -/
theorem quoteEnd?_eq_some_iff {cs : List Char} {n : Nat} :
    quoteEnd? cs = some n ↔
      ∃ body rest, cs = body ++ '"' :: rest ∧ n = body.length + 1 ∧ '"' ∉ body := by
  constructor
  · intro h
    fun_induction quoteEnd? cs generalizing n with
    | case1 cs =>
      cases h
      exact ⟨[], cs, rfl, rfl, List.not_mem_nil⟩
    | case2 c cs hc ih =>
      obtain ⟨m, hm, rfl⟩ := Option.map_eq_some_iff.mp h
      obtain ⟨body, rest, rfl, rfl, hbody⟩ := ih hm
      exact ⟨c :: body, rest, rfl, rfl, by simpa [hbody] using fun h => hc h.symm⟩
    | case3 => cases h
  · rintro ⟨body, rest, rfl, rfl, hbody⟩
    induction body with
    | nil => rfl
    | cons c body ih =>
      rw [List.mem_cons, not_or] at hbody
      rw [List.cons_append, quoteEnd?, ih hbody.2]
      · rfl
      · exact fun h => hbody.1 h.symm

/-! ### Reading by the first characters -/

theorem scan_line (cs : List Char) :
    scan '/' ('/' :: cs) = .ok (.comment (String.ofList ('/' :: '/' :: cs.takeWhile (· ≠ '\n'))),
      (cs.takeWhile (· ≠ '\n')).length + 1) := by
  simp [scan]

theorem scan_block (cs : List Char) :
    scan '/' ('*' :: cs) = match blockEnd? cs with
      | some n => .ok (.comment (String.ofList ('/' :: '*' :: cs.take n)), n + 1)
      | none => .error .openComment := by
  cases hend : blockEnd? cs <;> simp [scan, hend]

theorem scan_quote (cs : List Char) :
    scan '"' cs = match quoteEnd? cs with
      | some n => .ok (.text (String.ofList (cs.take (n - 1))), n)
      | none => .error .openText := by
  cases hend : quoteEnd? cs <;> simp [scan, hend]

theorem scan_of_isAlpha {c : Char} (h : c.isAlpha = true) (cs : List Char) :
    scan c cs = .ok (.word (String.ofList (c :: cs.takeWhile isWordChar)),
      (cs.takeWhile isWordChar).length) := by
  have halnum := isAlphanum_of_isAlpha h
  have hslash : c ≠ '/' := ne_of_isAlphanum halnum (by decide)
  have hquote : c ≠ '"' := ne_of_isAlphanum halnum (by decide)
  simp [scan, h, hslash, hquote, isDigit_of_isAlpha h]

theorem scan_of_isDigit {c : Char} (h : c.isDigit = true) (cs : List Char) :
    scan c cs =
      if Text.value (c :: cs.takeWhile Char.isDigit) < UInt64.size then
        .ok (.number (UInt64.ofNat (Text.value (c :: cs.takeWhile Char.isDigit))),
          (cs.takeWhile Char.isDigit).length)
      else .error (.tooLarge (String.ofList (c :: cs.takeWhile Char.isDigit))) := by
  have halnum := isAlphanum_of_isDigit h
  have hslash : c ≠ '/' := ne_of_isAlphanum halnum (by decide)
  have hquote : c ≠ '"' := ne_of_isAlphanum halnum (by decide)
  simp [scan, h, hslash, hquote]

/-- Where neither a comment nor anything else starts, only a symbol can. -/
theorem scan_of_plain {c : Char} {cs : List Char}
    (hcomment : c = '/' → cs.head? ≠ some '/' ∧ cs.head? ≠ some '*')
    (halnum : c.isAlphanum = false) (hquote : c ≠ '"') :
    scan c cs = match symbolAt? c cs.head? with
      | some symbol => .ok symbol
      | none => .error (.unexpected c) := by
  have hline : ¬ (c = '/' ∧ cs.head? = some '/') := fun hc => (hcomment hc.1).1 hc.2
  have hblock : ¬ (c = '/' ∧ cs.head? = some '*') := fun hc => (hcomment hc.1).2 hc.2
  have hdigit : c.isDigit = false := (Bool.or_eq_false_iff.mp halnum).2
  have halpha : c.isAlpha = false := (Bool.or_eq_false_iff.mp halnum).1
  cases hsymbol : symbolAt? c cs.head? <;>
    simp [scan, hline, hblock, hquote, hdigit, halpha, hsymbol]

/-- What can start at a place: a comment, a text, a number, a word, or else only a symbol. -/
theorem start_cases (c : Char) (cs : List Char) :
    (∃ tail, c = '/' ∧ cs = '/' :: tail) ∨ (∃ tail, c = '/' ∧ cs = '*' :: tail) ∨ c = '"' ∨
      c.isDigit = true ∨ c.isAlpha = true ∨
      (c = '/' → cs.head? ≠ some '/' ∧ cs.head? ≠ some '*') ∧ c.isAlphanum = false ∧ c ≠ '"' := by
  by_cases hline : c = '/' ∧ cs.head? = some '/'
  · obtain ⟨tail, htail⟩ := List.head?_eq_some_iff.mp hline.2
    exact .inl ⟨tail, hline.1, htail⟩
  by_cases hblock : c = '/' ∧ cs.head? = some '*'
  · obtain ⟨tail, htail⟩ := List.head?_eq_some_iff.mp hblock.2
    exact .inr (.inl ⟨tail, hblock.1, htail⟩)
  by_cases hquote : c = '"'
  · exact .inr (.inr (.inl hquote))
  by_cases hdigit : c.isDigit = true
  · exact .inr (.inr (.inr (.inl hdigit)))
  by_cases halpha : c.isAlpha = true
  · exact .inr (.inr (.inr (.inr (.inl halpha))))
  refine .inr (.inr (.inr (.inr (.inr ⟨fun hc => ?_, ?_, hquote⟩))))
  · exact ⟨fun h => hline ⟨hc, h⟩, fun h => hblock ⟨hc, h⟩⟩
  · rw [Char.isAlphanum, Bool.or_eq_false_iff]
    exact ⟨by simpa using halpha, by simpa using hdigit⟩

/-! ### Reading spellings -/

/-- A symbol is read where neither a comment nor anything else starts. -/
theorem scan_of_symbolAt? {c : Char} {cs : List Char} {symbol : Token × Nat}
    (h : symbolAt? c cs.head? = some symbol)
    (hcomment : c = '/' → cs.head? ≠ some '/' ∧ cs.head? ≠ some '*')
    (halnum : c.isAlphanum = false) (hquote : c ≠ '"') : scan c cs = .ok symbol := by
  rw [scan_of_plain hcomment halnum hquote, h]

/-- The spelling of an operator is read as the operator. -/
theorem scan_operator (o : Operator) {rest : List Char}
    (hrest : (Token.operator o).EndsBefore rest.head?) :
    ∃ c cs, (Token.operator o).spelling.toList = c :: cs ∧ Text.isBlank c = false ∧
      scan c (cs ++ rest) = .ok (.operator o, cs.length) := by
  -- no operator is a comment, a word or a text, so that the table of symbols is asked
  have hscan : ∀ c cs, o.symbol.toList = c :: cs →
      symbolAt? c (cs ++ rest).head? = some (.operator o, cs.length) →
      (c = '/' → (cs ++ rest).head? ≠ some '/' ∧ (cs ++ rest).head? ≠ some '*') →
      c.isAlphanum = false ∧ c ≠ '"' ∧ Text.isBlank c = false →
      ∃ c cs, (Token.operator o).spelling.toList = c :: cs ∧ Text.isBlank c = false ∧
        scan c (cs ++ rest) = .ok (.operator o, cs.length) := by
    intro c cs hsymbol hat hcomment ⟨halnum, hquote, hblank⟩
    exact ⟨c, cs, hsymbol, hblank, scan_of_symbolAt? hat hcomment halnum hquote⟩
  rcases o with c | a | b
  · cases c with
    | eq => exact hscan '=' ['='] rfl rfl nofun (by decide)
    | ne => exact hscan '!' ['='] rfl rfl nofun (by decide)
    | lt =>
      obtain ⟨heq, hlt⟩ : rest.head? ≠ some '=' ∧ rest.head? ≠ some '<' := hrest
      exact hscan '<' [] rfl (by simp [symbolAt?, heq, hlt]) nofun (by decide)
    | gt =>
      obtain ⟨heq, hgt⟩ : rest.head? ≠ some '=' ∧ rest.head? ≠ some '>' := hrest
      exact hscan '>' [] rfl (by simp [symbolAt?, heq, hgt]) nofun (by decide)
    | le => exact hscan '<' ['='] rfl rfl nofun (by decide)
    | ge => exact hscan '>' ['='] rfl rfl nofun (by decide)
  · cases a with
    | add => exact hscan '+' [] rfl rfl nofun (by decide)
    | sub => exact hscan '-' [] rfl rfl nofun (by decide)
    | mul => exact hscan '*' [] rfl rfl nofun (by decide)
    | div => exact hscan '/' [] rfl rfl (fun _ => hrest) (by decide)
    | mod => exact hscan '%' [] rfl rfl nofun (by decide)
  · cases b with
    | and =>
      have hand : rest.head? ≠ some '&' := hrest
      exact hscan '&' [] rfl (by simp [symbolAt?, hand]) nofun (by decide)
    | or =>
      have hor : rest.head? ≠ some '|' := hrest
      exact hscan '|' [] rfl (by simp [symbolAt?, hor]) nofun (by decide)
    | xor => exact hscan '^' [] rfl rfl nofun (by decide)
    | shl => exact hscan '<' ['<'] rfl rfl nofun (by decide)
    | shr => exact hscan '>' ['>'] rfl rfl nofun (by decide)
    | not =>
      have hnot : rest.head? ≠ some '=' := hrest
      exact hscan '!' [] rfl (by simp [symbolAt?, hnot]) nofun (by decide)

/-- **A spelling is read as its token**, if nothing behind it continues it. -/
theorem scan_spelling {t : Token} (ht : t.Lexical) {rest : List Char}
    (hrest : t.EndsBefore rest.head?) :
    ∃ c cs, t.spelling.toList = c :: cs ∧ Text.isBlank c = false ∧
      scan c (cs ++ rest) = .ok (t, cs.length) := by
  cases t with
  | word w =>
    obtain ⟨c, cs, hw, hc, hcs⟩ := isWord_iff.mp ht
    refine ⟨c, cs, hw, isBlank_of_isAlphanum (isAlphanum_of_isAlpha hc), ?_⟩
    rw [scan_of_isAlpha hc, takeWhile_append_of_stop hcs hrest, ← hw, String.ofList_toList]
  | number n =>
    have hall : ∀ c ∈ Text.numeral 10 n.toNat, c.isDigit = true :=
      fun c hc => Text.isDigit_of_mem_numeral hc
    have hvalue := Text.value_numeral n.toNat
    obtain ⟨c, cs, hn⟩ := List.exists_cons_of_ne_nil (Text.numeral_ne_nil 10 n.toNat)
    rw [hn] at hall hvalue
    have hc : c.isDigit = true := hall c List.mem_cons_self
    -- the digits of the numeral are read to their end, as none follows
    have htake : (cs ++ rest).takeWhile Char.isDigit = cs :=
      takeWhile_append_of_stop (fun d hd => hall d (List.mem_cons_of_mem _ hd)) hrest
    refine ⟨c, cs, ?_, isBlank_of_isAlphanum (isAlphanum_of_isDigit hc), ?_⟩
    · rw [Token.spelling, Text.decimal, hn, String.toList_ofList]
    · rw [scan_of_isDigit hc, htake, hvalue, if_pos n.toNat_lt, UInt64.ofNat_toNat]
  | text s =>
    refine ⟨'"', s.toList ++ ['"'], ?_, by decide, ?_⟩
    · simp [Token.spelling]
    · have hend := quoteEnd?_eq_some_iff.mpr ⟨s.toList, rest, rfl, rfl, ht⟩
      simp [scan_quote, hend]
  | comment raw =>
    rcases ht with ⟨cs, hraw, hcs⟩ | ⟨cs, hraw, hcs⟩
    · have hall : ∀ c ∈ cs, decide (c ≠ '\n') = true := by
        intro c hc
        simpa using fun h : c = '\n' => hcs (h ▸ hc)
      -- a line comment is read up to the line feed that has to follow it
      have hstop : ∀ c ∈ rest.head?, decide (c ≠ '\n') = false := by
        intro c hc
        simpa using hrest ⟨cs, hraw, hcs⟩ c hc
      refine ⟨'/', '/' :: cs, hraw, by decide, ?_⟩
      rw [List.cons_append, scan_line, takeWhile_append_of_stop hall hstop, ← hraw,
        String.ofList_toList]
      rfl
    · refine ⟨'/', '*' :: cs, hraw, by decide, ?_⟩
      rw [List.cons_append, scan_block, blockEnd?_append rest hcs]
      simp [← hraw]
  | operator o => exact scan_operator o hrest
  | lparen => exact ⟨'(', [], rfl, by decide, rfl⟩
  | rparen => exact ⟨')', [], rfl, by decide, rfl⟩
  | comma => exact ⟨',', [], rfl, by decide, rfl⟩
  | assign =>
    refine ⟨'=', [], rfl, by decide, scan_of_symbolAt? ?_ nofun (by decide) (by decide)⟩
    have hne : rest.head? ≠ some '=' := hrest
    simp [symbolAt?, hne]

/-! ### Reading texts -/

/-- Blanks before a text are dropped. -/
theorem lexFrom_blanks {bs : List Char} (hbs : ∀ c ∈ bs, Text.isBlank c = true) (offset : Nat)
    (cs : List Char) : lexFrom offset (bs ++ cs) = lexFrom (offset + Text.byteSize bs) cs := by
  induction bs generalizing offset with
  | nil => rfl
  | cons b bs ih =>
    obtain ⟨hb, hbs⟩ := List.forall_mem_cons.mp hbs
    rw [List.cons_append, lexFrom, if_pos hb, ih hbs, Text.byteSize, Nat.add_assoc]

/-- A token at the head of a text is the first token of the text. -/
theorem lexFrom_of_scan {c : Char} {cs rest : List Char} {t : Token}
    (hblank : Text.isBlank c = false) (hscan : scan c (cs ++ rest) = .ok (t, cs.length))
    (offset : Nat) : lexFrom offset (c :: (cs ++ rest)) =
      ⟨⟨offset, t⟩ :: (lexFrom (offset + Text.byteSize (c :: cs)) rest).tokens,
        (lexFrom (offset + Text.byteSize (c :: cs)) rest).fault⟩ := by
  rw [lexFrom, if_neg (by simp [hblank]), hscan]
  simp only [List.take_left, List.drop_left, Text.byteSize, Nat.add_assoc]

end ContractBasic
