/-
Lexemes.

What a token is written as is said here without the lexer: a token has its spellings, and a spelling
at a place of a text is a lexeme there if no longer one starts at the same place.  The lexer finds a
token exactly where there is a lexeme of it.

* `Token.Spells` — the spellings of a token
* `Token.IsLexeme` — the spellings that are cut where they have to be
* `isLexeme_of_scan` — what is read is a lexeme of the token
* `lexical_of_mem_lexFrom` — the tokens of a text are lexical
* `Token.IsLexeme.scan_eq_ok` — a lexeme is read as its token
* `Token.IsLexeme.congr_rest` — a lexeme stays one before another rest
-/
import ContractBasic.Proofs.Token.Scan

namespace ContractBasic

namespace Token

/-! ### Spellings and lexemes -/

/-- The symbols and what they mean; the bitwise `&` and `|` may be doubled. -/
def symbols : List (List Char × Token) :=
  [(['('], lparen), ([')'], rparen), ([','], comma), (['='], assign),
    (['=', '='], operator (.comparison .eq)), (['!', '='], operator (.comparison .ne)),
    (['<'], operator (.comparison .lt)), (['>'], operator (.comparison .gt)),
    (['<', '='], operator (.comparison .le)), (['>', '='], operator (.comparison .ge)),
    (['<', '<'], operator (.bitwise .shl)), (['>', '>'], operator (.bitwise .shr)),
    (['+'], operator (.arithmetic .add)), (['-'], operator (.arithmetic .sub)),
    (['*'], operator (.arithmetic .mul)), (['/'], operator (.arithmetic .div)),
    (['%'], operator (.arithmetic .mod)),
    (['&'], operator (.bitwise .and)), (['&', '&'], operator (.bitwise .and)),
    (['|'], operator (.bitwise .or)), (['|', '|'], operator (.bitwise .or)),
    (['^'], operator (.bitwise .xor)), (['!'], operator (.bitwise .not))]

/-- The spellings of a token.  Numbers have several, with leading zeros; a text ends at its first
quote, and a block comment at the first `*/` behind its two opening characters. -/
inductive Spells : Token → List Char → Prop where
  | word {cs : List Char} (h : IsWord (String.ofList cs)) : Spells (word (String.ofList cs)) cs
  | number {n : UInt64} {digits : List Char} (hne : digits ≠ [])
      (hdigits : ∀ c ∈ digits, c.isDigit = true) (hvalue : Text.value digits = n.toNat) :
      Spells (number n) digits
  | text {cs : List Char} (h : '"' ∉ cs) :
      Spells (text (String.ofList cs)) ('"' :: (cs ++ ['"']))
  | lineComment {cs : List Char} (h : '\n' ∉ cs) :
      Spells (comment (String.ofList ('/' :: '/' :: cs))) ('/' :: '/' :: cs)
  | blockComment {cs : List Char} (h : ¬ ['*', '/'] <:+: cs ++ ['*']) :
      Spells (comment (String.ofList ('/' :: '*' :: (cs ++ ['*', '/']))))
        ('/' :: '*' :: (cs ++ ['*', '/']))
  | symbol {t : Token} {cs : List Char} (h : (cs, t) ∈ symbols) : Spells t cs

/-- Whether the first characters of a text are a lexeme of a token, before the rest of the text. -/
structure IsLexeme (t : Token) (lexeme rest : List Char) : Prop where
  spells : t.Spells lexeme
  /-- No spelling that starts at the same place is longer. -/
  longest : ∀ t' item, Spells t' item → item <+: lexeme ++ rest → item.length ≤ lexeme.length
  /-- A row of digits is not cut, not even where its value would become too large. -/
  digits : ∀ n, t = number n → ∀ c ∈ rest.head?, c.isDigit = false
  /-- A line comment goes up to the end of the line. -/
  line : ∀ cs, lexeme = '/' :: '/' :: cs → ∀ c ∈ rest.head?, c = '\n'
  /-- A slash does not open a block comment, not even one that is never closed. -/
  slash : lexeme = ['/'] → rest.head? ≠ some '*'

/-! ### What is read is a lexeme -/

/-- A symbol that is found takes one character, or two if the next one belongs to it. -/
theorem mem_symbols_of_symbolAt? {c : Char} {next : Option Char} {t : Token} {n : Nat}
    (h : symbolAt? c next = some (t, n)) :
    n = 0 ∧ ([c], t) ∈ symbols ∨ n = 1 ∧ ∃ d, next = some d ∧ ([c, d], t) ∈ symbols := by
  unfold symbolAt? at h
  repeat' split at h
  all_goals cases h
  all_goals first
    | exact .inl ⟨rfl, by decide⟩
    | exact .inr ⟨rfl, _, ‹_›, by decide⟩

theorem Spells.isDigit {n : UInt64} {cs : List Char} (h : Spells (Token.number n) cs) :
    ∀ c ∈ cs, c.isDigit = true := by
  cases h with
  | number _ hdigits _ => exact hdigits
  | symbol h => simp [symbols] at h

/-- What has a spelling can be produced by the lexer. -/
theorem Spells.lexical {t : Token} {cs : List Char} (h : t.Spells cs) : t.Lexical := by
  cases h with
  | word h => exact h
  | number => trivial
  | text h => simpa [Lexical] using h
  | lineComment h => exact .inl ⟨_, String.toList_ofList, h⟩
  | @blockComment cs h =>
    refine .inr ⟨_, String.toList_ofList, blockEnd?_eq_some_iff.mpr ⟨cs, [], rfl, ?_, h⟩⟩
    rw [List.length_append, List.length_cons, List.length_singleton]
  | symbol h =>
    have hsymbols : ∀ s ∈ symbols, s.2.Lexical := by simp [symbols, Lexical]
    exact hsymbols _ h

end Token

open Token

/-- A token that is read is spelled by the characters that are read for it. -/
theorem spells_of_scan {c : Char} {cs : List Char} {t : Token} {n : Nat}
    (h : scan c cs = .ok (t, n)) :
    ∃ tail rest, cs = tail ++ rest ∧ n = tail.length ∧ t.Spells (c :: tail) := by
  rcases start_cases c cs with ⟨cs, rfl, rfl⟩ | ⟨cs, rfl, rfl⟩ | rfl | hdigit | halpha | hplain
  · -- a line comment
    rw [scan_line] at h
    cases h
    have hbody : '\n' ∉ cs.takeWhile (· ≠ '\n') := fun hmem => by
      simpa using List.mem_takeWhile_imp hmem
    refine ⟨'/' :: cs.takeWhile (· ≠ '\n'), cs.dropWhile (· ≠ '\n'), ?_, rfl, .lineComment hbody⟩
    rw [List.cons_append, List.takeWhile_append_dropWhile]
  · -- a block comment
    rw [scan_block] at h
    split at h
    · rename_i m hm
      obtain ⟨body, rest, rfl, rfl, hbody⟩ := blockEnd?_eq_some_iff.mp hm
      have htake : (body ++ '*' :: '/' :: rest).take (body.length + 2) = body ++ ['*', '/'] := by
        simp [List.take_append, List.take_of_length_le]
      rw [htake] at h
      cases h
      exact ⟨'*' :: (body ++ ['*', '/']), rest, by simp, by simp, .blockComment hbody⟩
    · cases h
  · -- a text
    rw [scan_quote] at h
    split at h
    · rename_i m hm
      obtain ⟨body, rest, rfl, rfl, hbody⟩ := quoteEnd?_eq_some_iff.mp hm
      rw [Nat.add_sub_cancel, List.take_left] at h
      cases h
      exact ⟨body ++ ['"'], rest, by simp, by simp, .text hbody⟩
    · cases h
  · -- a number
    rw [scan_of_isDigit hdigit] at h
    split at h
    · rename_i hvalue
      cases h
      refine ⟨cs.takeWhile Char.isDigit, cs.dropWhile Char.isDigit,
        List.takeWhile_append_dropWhile.symm, rfl, .number (by simp) ?_ ?_⟩
      · exact List.forall_mem_cons.mpr ⟨hdigit, fun d hd => List.mem_takeWhile_imp hd⟩
      · rw [UInt64.toNat_ofNat_of_lt' hvalue]
    · cases h
  · -- a word
    rw [scan_of_isAlpha halpha] at h
    cases h
    refine ⟨cs.takeWhile isWordChar, cs.dropWhile isWordChar,
      List.takeWhile_append_dropWhile.symm, rfl, .word ?_⟩
    exact isWord_iff.mpr ⟨c, cs.takeWhile isWordChar, String.toList_ofList, halpha,
      fun d hd => List.mem_takeWhile_imp hd⟩
  · -- a symbol
    obtain ⟨hcomment, halnum, hquote⟩ := hplain
    rw [scan_of_plain hcomment halnum hquote] at h
    split at h
    · rename_i hsymbol
      cases h
      rcases mem_symbols_of_symbolAt? hsymbol with ⟨rfl, hmem⟩ | ⟨rfl, d, hd, hmem⟩
      · exact ⟨[], cs, rfl, rfl, .symbol hmem⟩
      · obtain ⟨rest, rfl⟩ := List.head?_eq_some_iff.mp hd
        exact ⟨[d], rest, rfl, rfl, .symbol hmem⟩
    · cases h

/-- A row of characters with a property, at the head of a text, is no longer than what is taken
there. -/
theorem length_le_takeWhile_append {p : Char → Bool} {cs : List Char} (rest : List Char)
    (hcs : ∀ c ∈ cs, p c = true) : cs.length ≤ ((cs ++ rest).takeWhile p).length := by
  rw [List.takeWhile_append_of_pos hcs, List.length_append]
  omega

/-- Where the taking of characters with a property stops, there is none with the property. -/
theorem head?_of_length_takeWhile {p : Char → Bool} {cs rest : List Char}
    (h : ((cs ++ rest).takeWhile p).length = cs.length) : ∀ c ∈ rest.head?, p c = false := by
  have hsplit : (cs ++ rest).takeWhile p ++ (cs ++ rest).dropWhile p = cs ++ rest :=
    List.takeWhile_append_dropWhile
  obtain ⟨-, hrest⟩ := List.append_inj hsplit h
  intro c hc
  have hstop := List.head?_dropWhile_not p (cs ++ rest)
  rw [hrest, hc] at hstop
  exact hstop

/-- A symbol of two characters is read, whatever is behind it. -/
theorem scan_of_mem_symbols {c d : Char} {t : Token} (h : ([c, d], t) ∈ symbols)
    (rest : List Char) : scan c (d :: rest) = .ok (t, 1) := by
  -- of the symbols, eight have two characters
  simp only [symbols, List.mem_cons, Prod.mk.injEq, List.cons.injEq, reduceCtorEq, and_true,
    and_false, false_and, List.not_mem_nil, or_false, false_or] at h
  rcases h with h | h | h | h | h | h | h | h
  all_goals
    obtain ⟨⟨rfl, rfl⟩, rfl⟩ := h
    rfl

/-- What is read is at least as long as any spelling at the same place. -/
theorem length_le_of_scan {c : Char} {tail rest : List Char} {t t' : Token} {n : Nat}
    (hspells : t'.Spells (c :: tail)) (h : scan c (tail ++ rest) = .ok (t, n)) :
    tail.length ≤ n := by
  -- the first character decides how far the lexer looks, and no other one of the spelling stops it
  generalize hitem : c :: tail = item at hspells
  cases hspells with
  | word hw =>
    obtain ⟨c', tail', hcs, halpha, htail⟩ := isWord_iff.mp hw
    rw [String.toList_ofList, ← hitem] at hcs
    cases hcs
    rw [scan_of_isAlpha halpha] at h
    cases h
    exact length_le_takeWhile_append rest htail
  | number hne hdigits hvalue =>
    subst hitem
    obtain ⟨hc, htail⟩ := List.forall_mem_cons.mp hdigits
    rw [scan_of_isDigit hc] at h
    split at h
    · cases h
      exact length_le_takeWhile_append rest htail
    · cases h
  | @text cs hcs =>
    cases hitem
    have hend := quoteEnd?_eq_some_iff.mpr ⟨cs, rest, rfl, rfl, hcs⟩
    rw [List.append_assoc, List.singleton_append, scan_quote, hend] at h
    cases h
    simp
  | @lineComment cs hcs =>
    cases hitem
    rw [List.cons_append, scan_line] at h
    cases h
    refine Nat.succ_le_succ (length_le_takeWhile_append rest fun d hd => ?_)
    simpa using fun hline : d = '\n' => hcs (hline ▸ hd)
  | @blockComment cs hcs =>
    cases hitem
    have hend := blockEnd?_eq_some_iff.mpr ⟨cs, rest, rfl, rfl, hcs⟩
    have hsplit : '*' :: (cs ++ ['*', '/']) ++ rest = '*' :: (cs ++ '*' :: '/' :: rest) := by simp
    rw [hsplit, scan_block, hend] at h
    cases h
    simp
  | symbol hmem =>
    subst hitem
    -- symbols are of one or two characters, and one of two is read before one of one
    match tail with
    | [] => exact Nat.zero_le n
    | [d] =>
      rw [List.singleton_append, scan_of_mem_symbols hmem] at h
      cases h
      exact Nat.le_refl 1
    | d :: e :: tail =>
      have hlength : ∀ s ∈ symbols, s.1.length ≤ 2 := by decide
      have htwo := hlength _ hmem
      rw [List.length_cons, List.length_cons, List.length_cons] at htwo
      omega

/-- **What is read is a lexeme of the token that is read.** -/
theorem isLexeme_of_scan {c : Char} {cs : List Char} {t : Token} {n : Nat}
    (h : scan c cs = .ok (t, n)) :
    ∃ tail rest, cs = tail ++ rest ∧ n = tail.length ∧ t.IsLexeme (c :: tail) rest := by
  obtain ⟨tail, rest, rfl, rfl, hspells⟩ := spells_of_scan h
  refine ⟨tail, rest, rfl, rfl, ?_⟩
  constructor
  case spells => exact hspells
  case longest =>
    intro t' item hitem hstart
    cases item with
    | nil => exact Nat.zero_le _
    | cons d item =>
      obtain ⟨rest', hrest'⟩ := hstart
      obtain ⟨rfl, htail⟩ := List.cons.inj hrest'
      have htail : item ++ rest' = tail ++ rest := htail
      rw [← htail] at h
      exact Nat.succ_le_succ (length_le_of_scan hitem h)
  case digits =>
    rintro m rfl
    obtain ⟨hdigit, -⟩ := List.forall_mem_cons.mp hspells.isDigit
    rw [scan_of_isDigit hdigit] at h
    split at h
    · have hlength := congrArg Prod.snd (Except.ok.inj h)
      exact head?_of_length_takeWhile hlength
    · cases h
  case line =>
    intro body hbody
    obtain ⟨rfl, rfl⟩ := List.cons.inj hbody
    rw [List.cons_append, scan_line] at h
    have hlength := congrArg Prod.snd (Except.ok.inj h)
    intro d hd
    simpa using head?_of_length_takeWhile (Nat.succ.inj hlength) d hd
  case slash =>
    intro hslash hhead
    obtain ⟨rfl, rfl⟩ := List.cons.inj hslash
    obtain ⟨later, rfl⟩ := List.head?_eq_some_iff.mp hhead
    rw [List.nil_append, scan_block] at h
    -- a closed comment is longer than a slash, and an open one is a fault
    split at h
    · cases h
    · cases h

/-- The tokens of a text can be produced by the lexer. -/
theorem lexical_of_mem_lexFrom {offset : Nat} {cs : List Char} :
    ∀ t ∈ (lexFrom offset cs).tokens, t.item.Lexical := by
  fun_induction lexFrom offset cs with
  | case1 => nofun
  | case2 offset c cs hblank ih => exact ih
  | case3 => nofun
  | case4 offset c cs hblank token n hscan next later ih =>
    intro t ht
    rcases List.mem_cons.mp ht with rfl | ht
    · obtain ⟨tail, rest, -, -, hspells⟩ := spells_of_scan hscan
      exact hspells.lexical
    · exact ih t ht

/-! ### Lexemes are read -/

namespace Token

/-- A lexeme is not followed by a character that makes it a longer spelling. -/
theorem IsLexeme.head?_ne {t t' : Token} {lexeme rest : List Char} {c : Char}
    (h : t.IsLexeme lexeme rest) (hc : t'.Spells (lexeme ++ [c])) : rest.head? ≠ some c := by
  intro hhead
  obtain ⟨tail, rfl⟩ := List.head?_eq_some_iff.mp hhead
  have hlength := h.longest t' (lexeme ++ [c]) hc ⟨tail, by simp⟩
  rw [List.length_append, List.length_singleton] at hlength
  omega

/-- A word goes on as long as it can. -/
theorem IsLexeme.isWordChar {t : Token} {lexeme rest : List Char} (h : t.IsLexeme lexeme rest)
    (hword : IsWord (String.ofList lexeme)) : ∀ c ∈ rest.head?, isWordChar c = false := by
  intro c hc
  by_contra hchar
  obtain ⟨d, cs, hlexeme, halpha, hcs⟩ := isWord_iff.mp hword
  rw [String.toList_ofList] at hlexeme
  subst hlexeme
  refine h.head?_ne (.word (isWord_iff.mpr ⟨d, cs ++ [c], ?_, halpha, ?_⟩)) hc
  · rw [String.toList_ofList, List.cons_append]
  · intro e he
    rcases List.mem_append.mp he with he | he
    · exact hcs e he
    · rw [List.mem_singleton.mp he]
      simpa using hchar

/-- Every symbol is the canonical spelling of what it means, but for two doubled ones. -/
theorem mem_symbols_cases {t : Token} {cs : List Char} (h : (cs, t) ∈ symbols) :
    cs = t.spelling.toList ∨ cs = ['&', '&'] ∧ t = operator (.bitwise .and) ∨
      cs = ['|', '|'] ∧ t = operator (.bitwise .or) := by
  have hall : ∀ s ∈ symbols, s.1 = s.2.spelling.toList ∨
      s.1 = ['&', '&'] ∧ s.2 = operator (.bitwise .and) ∨
      s.1 = ['|', '|'] ∧ s.2 = operator (.bitwise .or) := by decide
  exact hall (cs, t) h

/-- A symbol is not followed by a character that makes it another symbol. -/
theorem IsLexeme.head?_ne_of_symbol {t : Token} {lexeme rest : List Char} {c : Char}
    (h : t.IsLexeme lexeme rest) (hc : lexeme ++ [c] ∈ symbols.map Prod.fst) :
    rest.head? ≠ some c := by
  obtain ⟨⟨cs, t'⟩, hmem, rfl⟩ := List.mem_map.mp hc
  exact h.head?_ne (.symbol hmem)

/-- An operator is over where its lexeme ends. -/
theorem IsLexeme.endsBefore_operator {o : Operator} {rest : List Char}
    (h : (operator o).IsLexeme o.symbol.toList rest) : (operator o).EndsBefore rest.head? := by
  rcases o with o | o | o
  · cases o with
    | lt => exact ⟨h.head?_ne_of_symbol (by decide), h.head?_ne_of_symbol (by decide)⟩
    | gt => exact ⟨h.head?_ne_of_symbol (by decide), h.head?_ne_of_symbol (by decide)⟩
    | _ => trivial
  · cases o with
    | div => exact ⟨h.head?_ne (.lineComment List.not_mem_nil), h.slash rfl⟩
    | _ => trivial
  · cases o with
    | and => exact h.head?_ne_of_symbol (by decide)
    | or => exact h.head?_ne_of_symbol (by decide)
    | not => exact h.head?_ne_of_symbol (by decide)
    | _ => trivial

/-- A lexeme that is the canonical spelling of its token is over where it ends. -/
theorem IsLexeme.endsBefore {t : Token} {rest : List Char}
    (h : t.IsLexeme t.spelling.toList rest) : t.EndsBefore rest.head? := by
  cases t with
  | word w =>
    refine h.isWordChar ?_
    rw [spelling, String.ofList_toList]
    exact h.spells.lexical
  | number n => exact h.digits n rfl
  | comment raw =>
    rintro ⟨cs, hraw, -⟩
    exact h.line cs hraw
  | assign => exact h.head?_ne_of_symbol (by decide)
  | operator o => exact h.endsBefore_operator
  | _ => trivial

end Token

/-- A lexeme is read as its token, and still so if another rest is put behind it before which the token
is over where it was over before the old one. -/
theorem Token.IsLexeme.scan_append {t : Token} {lexeme rest rest' : List Char}
    (h : t.IsLexeme lexeme rest) (hrest : t.EndsBefore rest.head? → t.EndsBefore rest'.head?) :
    ∃ c tail, lexeme = c :: tail ∧ Text.isBlank c = false ∧
      scan c (tail ++ rest') = .ok (t, tail.length) := by
  -- numbers, `&` and `|` have other spellings than the canonical one
  have hcanonical : lexeme = t.spelling.toList → ∃ c tail, lexeme = c :: tail ∧
      Text.isBlank c = false ∧ scan c (tail ++ rest') = .ok (t, tail.length) := by
    rintro rfl
    exact scan_spelling h.spells.lexical (hrest h.endsBefore)
  cases h.spells with
  | word => exact hcanonical (by simp [spelling])
  | number hne hdigits hvalue =>
    obtain ⟨c, tail, rfl⟩ := List.exists_cons_of_ne_nil hne
    obtain ⟨hc, htail⟩ := List.forall_mem_cons.mp hdigits
    have htake : (tail ++ rest').takeWhile Char.isDigit = tail :=
      takeWhile_append_of_stop htail (hrest (h.digits _ rfl))
    refine ⟨c, tail, rfl, isBlank_of_isAlphanum (isAlphanum_of_isDigit hc), ?_⟩
    rw [scan_of_isDigit hc, htake, hvalue, if_pos (UInt64.toNat_lt _), UInt64.ofNat_toNat]
  | text => exact hcanonical (by simp [spelling])
  | lineComment => exact hcanonical (by simp [spelling])
  | blockComment => exact hcanonical (by simp [spelling])
  | symbol hmem =>
    rcases mem_symbols_cases hmem with hspelling | ⟨rfl, rfl⟩ | ⟨rfl, rfl⟩
    · exact hcanonical hspelling
    · exact ⟨'&', ['&'], rfl, by decide, rfl⟩
    · exact ⟨'|', ['|'], rfl, by decide, rfl⟩

/-- **A lexeme is read as its token.** -/
theorem Token.IsLexeme.scan_eq_ok {t : Token} {lexeme rest : List Char}
    (h : t.IsLexeme lexeme rest) : ∃ c tail, lexeme = c :: tail ∧ Text.isBlank c = false ∧
      scan c (tail ++ rest) = .ok (t, tail.length) :=
  h.scan_append id

/-- A lexeme stays one if another rest is put behind it before which its token is over. -/
theorem Token.IsLexeme.congr_rest {t : Token} {lexeme rest rest' : List Char}
    (h : t.IsLexeme lexeme rest) (hrest : t.EndsBefore rest.head? → t.EndsBefore rest'.head?) :
    t.IsLexeme lexeme rest' := by
  obtain ⟨c, tail, rfl, -, hscan⟩ := h.scan_append hrest
  obtain ⟨tail', rest'', hcut, hlength, hlexeme⟩ := isLexeme_of_scan hscan
  obtain ⟨rfl, rfl⟩ := List.append_inj hcut hlength
  exact hlexeme

end ContractBasic
