/-
Faults of the lexer.

Where a text has no partition into tokens, the lexer stops at the first place where no token starts.
There are four kinds of such places, and what it says tells which of them it has found.  What stands
before the place has the tokens that were read, and no others, when it is read alone.

* `Lexing.items` — what the lexer gives out, one item after another
* `Unlexable` — the places where no token starts, with what is said about them
* `exists_scan_eq_error_iff` — there is a fault exactly where no token starts
* `items_lex_fault` — where the lexer stops and what it has given out by then
-/
import ContractBasic.Error
import ContractBasic.Proofs.Token.Prefix

namespace ContractBasic

/-! ### What the lexer gives out -/

/-- What the lexer gives out for a text of so many bytes, one item after another: the tokens in order,
and behind them the fault that stopped it or the end of input. -/
def Lexing.items (l : Lexing) (size : Nat) :
    List (Except (Placed LexicalFault) (Placed (Option Token))) :=
  l.tokens.map (fun t => .ok ⟨t.offset, some t.item⟩) ++
    [match l.fault with
      | some f => .error f
      | none => .ok ⟨size, none⟩]

/-- A fault is the last item, and all tokens come before it. -/
theorem Lexing.items_eq_append_error {l : Lexing} {size : Nat}
    {earlier later : List (Except (Placed LexicalFault) (Placed (Option Token)))}
    {f : Placed LexicalFault} (h : l.items size = earlier ++ .error f :: later) :
    l.fault = some f ∧ earlier = l.tokens.map (fun t => .ok ⟨t.offset, some t.item⟩) ∧
      later = [] := by
  obtain ⟨tokens, fault⟩ := l
  induction tokens generalizing earlier with
  | nil =>
    cases earlier with
    | nil =>
      obtain ⟨hfault, rfl⟩ := List.cons.inj h
      cases fault with
      | none => cases hfault
      | some g =>
        cases hfault
        exact ⟨rfl, rfl, rfl⟩
    | cons e earlier => exact absurd (congrArg List.length h) (by simp [items])
  | cons t tokens ih =>
    cases earlier with
    | nil => cases h
    | cons e earlier =>
      obtain ⟨rfl, hrest⟩ := List.cons.inj h
      obtain ⟨hfault, rfl, hlater⟩ := ih hrest
      exact ⟨hfault, rfl, hlater⟩

/-! ### Where no token starts -/

/-- The characters that start a symbol, a comment or a text. -/
def signStarts : List Char :=
  ['(', ')', ',', '+', '-', '*', '%', '^', '=', '!', '<', '>', '&', '|', '/', '"']

/-- Whether no token starts at the head of a text, and what is said about it: a quote without a partner,
a block comment that is not closed behind its two opening characters, a whole row of digits for a number
of more than 64 bits, or a character that starts nothing. -/
inductive Unlexable : String → List Char → Prop where
  | openText {cs : List Char} (h : '"' ∉ cs) :
      Unlexable "unterminated string literal" ('"' :: cs)
  | openComment {cs : List Char} (h : ¬ ['*', '/'] <:+: cs) :
      Unlexable "unterminated block comment" ('/' :: '*' :: cs)
  | tooLarge {digits rest : List Char} (hne : digits ≠ [])
      (hdigits : ∀ c ∈ digits, c.isDigit = true) (hrest : ∀ c ∈ rest.head?, c.isDigit = false)
      (hvalue : UInt64.size ≤ Text.value digits) :
      Unlexable ("value too large for Uint64: " ++ String.ofList digits) (digits ++ rest)
  | unexpected {c : Char} {cs : List Char} (hblank : Text.isBlank c = false)
      (halnum : c.isAlphanum = false) (hstart : c ∉ signStarts) :
      Unlexable ("unexpected character `" ++ String.singleton c ++ "`") (c :: cs)

/-- There is text where no token starts, and it does not start with a blank. -/
theorem Unlexable.exists_cons {message : String} {after : List Char}
    (h : Unlexable message after) : ∃ c cs, after = c :: cs ∧ Text.isBlank c = false := by
  cases h with
  | openText => exact ⟨_, _, rfl, by decide⟩
  | openComment => exact ⟨_, _, rfl, by decide⟩
  | tooLarge hne hdigits =>
    obtain ⟨c, digits, rfl⟩ := List.exists_cons_of_ne_nil hne
    exact ⟨c, _, rfl, isBlank_of_isAlphanum (isAlphanum_of_isDigit (hdigits c List.mem_cons_self))⟩
  | unexpected hblank => exact ⟨_, _, rfl, hblank⟩

/-- A text without a quote does not end one. -/
theorem quoteEnd?_eq_none_iff {cs : List Char} : quoteEnd? cs = none ↔ '"' ∉ cs := by
  constructor
  · intro h hmem
    obtain ⟨body, rest, rfl, hbody⟩ := List.eq_append_cons_of_mem hmem
    rw [quoteEnd?_eq_some_iff.mpr ⟨body, rest, rfl, rfl, hbody⟩] at h
    cases h
  · intro h
    cases hend : quoteEnd? cs with
    | none => rfl
    | some n =>
      obtain ⟨body, rest, rfl, -, -⟩ := quoteEnd?_eq_some_iff.mp hend
      exact absurd (by simp) h

/-- No symbol starts with a character exactly if nothing that is no word and no number does. -/
theorem symbolAt?_eq_none_iff {c : Char} {next : Option Char} (hquote : c ≠ '"') :
    symbolAt? c next = none ↔ c ∉ signStarts := by
  unfold symbolAt?
  repeat' split
  all_goals simp_all [signStarts]

/-- Where there is a fault no token starts. -/
theorem unlexable_of_scan {c : Char} {cs : List Char} (hblank : Text.isBlank c = false)
    {f : LexicalFault} (hscan : scan c cs = .error f) : Unlexable f.message (c :: cs) := by
  -- of the six ways to start, a line comment and a word never fail
  rcases start_cases c cs with ⟨cs, rfl, rfl⟩ | ⟨cs, rfl, rfl⟩ | rfl | hdigit | halpha | hplain
  · rw [scan_line] at hscan
    cases hscan
  · rw [scan_block] at hscan
    split at hscan
    · cases hscan
    · rename_i hend
      cases hscan
      exact .openComment (blockEnd?_eq_none_iff.mp hend)
  · rw [scan_quote] at hscan
    split at hscan
    · cases hscan
    · rename_i hend
      cases hscan
      exact .openText (quoteEnd?_eq_none_iff.mp hend)
  · rw [scan_of_isDigit hdigit] at hscan
    split at hscan
    · cases hscan
    · rename_i hvalue
      cases hscan
      -- the digits that are read are all there are, as the next character is none
      have hrow : c :: cs.takeWhile Char.isDigit ++ cs.dropWhile Char.isDigit = c :: cs := by
        rw [List.cons_append, List.takeWhile_append_dropWhile]
      rw [← hrow]
      refine .tooLarge (List.cons_ne_nil _ _) ?_ ?_ (Nat.not_lt.mp hvalue)
      · exact List.forall_mem_cons.mpr ⟨hdigit, fun d hd => List.mem_takeWhile_imp hd⟩
      · intro d hd
        have hstop := List.head?_dropWhile_not Char.isDigit cs
        rw [hd] at hstop
        exact hstop
  · rw [scan_of_isAlpha halpha] at hscan
    cases hscan
  · obtain ⟨hcomment, halnum, hquote⟩ := hplain
    rw [scan_of_plain hcomment halnum hquote] at hscan
    split at hscan
    · cases hscan
    · rename_i hsymbol
      cases hscan
      exact .unexpected hblank halnum ((symbolAt?_eq_none_iff hquote).mp hsymbol)

/-- Where no token starts there is a fault. -/
theorem exists_scan_of_unlexable {c : Char} {cs : List Char} {message : String}
    (h : Unlexable message (c :: cs)) : ∃ f, f.message = message ∧ scan c cs = .error f := by
  generalize htext : c :: cs = text at h
  cases h with
  | openText h =>
    cases htext
    exact ⟨.openText, rfl, by rw [scan_quote, quoteEnd?_eq_none_iff.mpr h]⟩
  | openComment h =>
    cases htext
    exact ⟨.openComment, rfl, by rw [scan_block, blockEnd?_eq_none_iff.mpr h]⟩
  | @tooLarge digits rest hne hdigits hrest hvalue =>
    obtain ⟨d, digits, rfl⟩ := List.exists_cons_of_ne_nil hne
    rw [List.cons_append] at htext
    obtain ⟨rfl, rfl⟩ := List.cons.inj htext
    obtain ⟨hd, hdigits⟩ := List.forall_mem_cons.mp hdigits
    have hsize : ¬ Text.value (c :: digits) < UInt64.size := Nat.not_lt.mpr hvalue
    refine ⟨.tooLarge (String.ofList (c :: digits)), rfl, ?_⟩
    rw [scan_of_isDigit hd, takeWhile_append_of_stop hdigits hrest, if_neg hsize]
  | unexpected hblank halnum hstart =>
    cases htext
    -- neither a slash nor a quote, since these start something whatever is behind them
    have hslash : c ≠ '/' := by
      rintro rfl
      exact hstart (by decide)
    have hquote : c ≠ '"' := by
      rintro rfl
      exact hstart (by decide)
    refine ⟨.unexpected c, rfl, ?_⟩
    rw [scan_of_plain (fun hc => absurd hc hslash) halnum hquote,
      (symbolAt?_eq_none_iff hquote).mpr hstart]

/-- **There is a fault exactly where no token starts**, and the message says which kind of place it
is. -/
theorem exists_scan_eq_error_iff {c : Char} {cs : List Char} (hblank : Text.isBlank c = false)
    (message : String) : (∃ f, f.message = message ∧ scan c cs = .error f) ↔
      Unlexable message (c :: cs) := by
  constructor
  · rintro ⟨f, rfl, hscan⟩
    exact unlexable_of_scan hblank hscan
  · exact exists_scan_of_unlexable

/-! ### Where the lexer stops -/

/-- The lexer stops behind the text that gives the tokens it has read, at a character that is no blank and
starts no token. -/
theorem exists_cutBefore_of_fault {source : List Char} {f : Placed LexicalFault}
    (h : (lex source).fault = some f) : ∃ before c cs, source = before ++ c :: cs ∧
      CutBefore (c :: cs) 0 before (lex source).tokens ∧ f.offset = Text.byteSize before ∧
      Text.isBlank c = false ∧ scan c cs = .error f.item := by
  obtain ⟨before, after, rfl, hblank, hcut, hlex⟩ :=
    exists_cutBefore (List.append_nil (lexFrom 0 source).tokens).symm
  rw [show (lexFrom 0 _).fault = some f from h, Nat.zero_add] at hlex
  cases after with
  | nil =>
    -- at the end of the text there is no fault
    rw [lexFrom] at hlex
    cases hlex
  | cons c cs =>
    have hc : Text.isBlank c = false := hblank c rfl
    rw [lexFrom, if_neg (by simp [hc])] at hlex
    cases hscan : scan c cs with
    | ok symbol =>
      obtain ⟨t, n⟩ := symbol
      rw [hscan] at hlex
      cases hlex
    | error g =>
      rw [hscan] at hlex
      cases hlex
      exact ⟨before, c, cs, rfl, hcut, rfl, hc, hscan⟩

/-- **The lexer stops exactly at the first place where no token starts.**  The fault is the last item;
its offset is that of a place inside the text which the lexer reaches; the text up to there, read alone,
gives the tokens before the fault and ends; and what stands there is of one of the four kinds, as the
message says.  Conversely the lexer stops at every place of these kinds that it reaches. -/
theorem items_lex_fault (source : List Char) :
    (∀ earlier f later,
      (lex source).items (Text.byteSize source) = earlier ++ .error f :: later →
        later = [] ∧ ∃ before after tokens, source = before ++ after ∧
          CutBefore after 0 before tokens ∧
          earlier = tokens.map (fun t => .ok ⟨t.offset, some t.item⟩) ∧
          f.offset = Text.byteSize before ∧ f.offset < Text.byteSize source ∧
          (lex before).items (Text.byteSize before) = earlier ++ [.ok ⟨f.offset, none⟩] ∧
          Unlexable f.item.message after) ∧
    ∀ before after tokens message, source = before ++ after → CutBefore after 0 before tokens →
      Unlexable message after → ∃ f, f.message = message ∧
        (lex source).items (Text.byteSize source)
          = tokens.map (fun t => .ok ⟨t.offset, some t.item⟩) ++
            [.error ⟨Text.byteSize before, f⟩] := by
  constructor
  · intro earlier f later hitems
    obtain ⟨hfault, rfl, rfl⟩ := Lexing.items_eq_append_error hitems
    obtain ⟨before, c, cs, rfl, hcut, hoffset, hblank, hscan⟩ := exists_cutBefore_of_fault hfault
    -- cut off there, the text gives the same tokens, and then it ends
    have halone : lex before = ⟨(lex (before ++ c :: cs)).tokens, none⟩ := hcut.lexFrom_eq
    refine ⟨rfl, before, c :: cs, _, rfl, hcut, rfl, hoffset, ?_, by rw [halone, hoffset]; rfl, ?_⟩
    · rw [hoffset, Text.byteSize_append]
      exact Nat.lt_add_of_pos_right (Text.byteSize_pos (List.cons_ne_nil c cs))
    · exact (exists_scan_eq_error_iff hblank _).mp ⟨f.item, rfl, hscan⟩
  · rintro before after tokens message rfl hcut hafter
    obtain ⟨c, cs, rfl, hblank⟩ := hafter.exists_cons
    obtain ⟨f, hmessage, hscan⟩ := (exists_scan_eq_error_iff hblank message).mpr hafter
    refine ⟨f, hmessage, ?_⟩
    rw [lex, hcut.lexFrom_append, Nat.zero_add, lexFrom, if_neg (by simp [hblank]), hscan,
      List.append_nil]
    rfl

/-- A comment with a letter of two bytes, and a number that is too large behind its zeros. -/
def hugeNumber : List Char := "A /*é*/ 0018446744073709551616b".toList

theorem items_lex_fault_hugeNumber :
    (lex hugeNumber).items (Text.byteSize hugeNumber)
      = [.ok ⟨0, some (.word "A")⟩, .ok ⟨2, some (.comment "/*é*/")⟩] ++
        .error ⟨9, .tooLarge "0018446744073709551616"⟩ :: [] ∧
    ∃ before after tokens, hugeNumber = before ++ after ∧ CutBefore after 0 before tokens ∧
      9 = Text.byteSize before ∧ 9 < Text.byteSize hugeNumber ∧
      (lex before).items (Text.byteSize before)
        = [.ok ⟨0, some (.word "A")⟩, .ok ⟨2, some (.comment "/*é*/")⟩] ++ [.ok ⟨9, none⟩] ∧
      Unlexable "value too large for Uint64: 0018446744073709551616" after ∧
      ∃ f, f.message = "value too large for Uint64: 0018446744073709551616" ∧
        (lex hugeNumber).items (Text.byteSize hugeNumber)
          = tokens.map (fun t => .ok ⟨t.offset, some t.item⟩) ++
            [.error ⟨Text.byteSize before, f⟩] := by
  have hitems : (lex hugeNumber).items (Text.byteSize hugeNumber)
      = [.ok ⟨0, some (.word "A")⟩, .ok ⟨2, some (.comment "/*é*/")⟩] ++
        .error ⟨9, .tooLarge "0018446744073709551616"⟩ :: [] := by decide +kernel
  obtain ⟨-, before, after, tokens, hsource, hcut, -, hoffset, hinside, halone, hafter⟩ :=
    (items_lex_fault hugeNumber).1 _ _ _ hitems
  exact ⟨hitems, before, after, tokens, hsource, hcut, hoffset, hinside, halone, hafter,
    (items_lex_fault hugeNumber).2 before after tokens _ hsource hcut hafter⟩

end ContractBasic
