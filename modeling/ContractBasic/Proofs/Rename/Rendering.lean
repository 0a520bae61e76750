/-
Programs under short names as source text.

What source text can express does not hang on the identifiers, as long as each is written as before or
as a word that is not taken for a keyword: operands and types stay, statements open with the same kind
of token, and declarations join to the same items.  Short names are such words, so a program is read
back from its text under short names.

* `Spelling.Unclaiming` — spellings by words that are not taken for keywords
* `Program.Renderable.spell` — source text can express a program spelled anew
* `Program.read_generate_minified` — what is generated under short names is read as the program with
  short names
-/
import ContractBasic.Proofs.Rename.Meaning
import ContractBasic.Proofs.RoundTrip

namespace ContractBasic

open Piece

/-! ### Words that are not taken for keywords -/

/-- Whether a name is written as before, or as a word that does not say what its line holds. -/
def IsRespelling (n n' : String) : Prop :=
  n' = n ∨ IsWord n' ∧ (Token.word n').claimsLine = false

theorem IsRespelling.isWord {n n' : String} (h : IsRespelling n n') (hn : IsWord n) : IsWord n' := by
  rcases h with rfl | ⟨h, -⟩
  · exact hn
  · exact h

theorem IsRespelling.claimsLine {n n' : String} (h : IsRespelling n n')
    (hn : (Token.word n).claimsLine = false) : (Token.word n').claimsLine = false := by
  rcases h with rfl | ⟨-, h⟩
  · exact hn
  · exact h

/-- Whether every identifier is written as before, or as a word that does not say what its line
holds. -/
structure Spelling.Unclaiming (s : Spelling) : Prop where
  routine : ∀ n, IsRespelling n (s.routine n)
  name : ∀ f n, IsRespelling n (s.name f n)
  call : ∀ f n, IsRespelling n (s.call f n)

/-- A short name is no keyword: no keyword starts with its letter. -/
theorem claimsLine_shortName (kind : SymbolKind) (n : Nat) :
    (Token.word (shortName kind n)).claimsLine = false := by
  -- short names start with the letter of their kind
  have hhead : (shortName kind n).toList.head? = some kind.letter := by
    rw [shortName, String.toList_ofList, List.head?_cons]
  have hupper : (shortName kind n).toUpper.toList.head? = some kind.letter.toUpper := by
    show ((shortName kind n).map Char.toUpper).toList.head? = _
    rw [String.toList_map, List.head?_map, hhead, Option.map_some]
  have hend : shortName kind n ≠ "End" := by
    intro heq
    rw [heq] at hhead
    cases kind <;> exact absurd hhead (by decide)
  have hopens : statementKeywords.contains (shortName kind n).toUpper = false := by
    have hletter : ∀ w ∈ statementKeywords, w.toList.head? ≠ some kind.letter.toUpper := by
      cases kind <;> decide
    rw [List.contains_eq_mem, decide_eq_false_iff_not]
    exact fun hmem => hletter _ hmem hupper
  rw [Token.claimsLine, Token.endsLine, Token.opensStatement, hopens, Bool.or_false]
  exact decide_eq_false hend

namespace Renaming

theorem isRespelling_spell (t : SymbolTable) (meaning : Option (Symbol × SymbolInfo)) (n : String) :
    IsRespelling n ((ofTable t).spell meaning n) := by
  rw [spell]
  cases hshort : (meaning.map (·.1)).bind (ofTable t).short? with
  | none => exact .inl rfl
  | some x =>
    obtain ⟨s, -, hs⟩ := Option.bind_eq_some_iff.mp hshort
    obtain ⟨e, he, -, rfl⟩ := exists_mem_of_short? hs
    obtain ⟨k, heq⟩ := exists_shortName_of_mem_assign he
    rw [Option.getD_some, heq]
    exact .inr ⟨isWord_shortName _ k, claimsLine_shortName _ k⟩

/-- A renaming of a table writes identifiers as before or by short names. -/
theorem unclaiming_spelling (t u : SymbolTable) : ((ofTable t).spelling u).Unclaiming where
  routine n := isRespelling_spell t (some (.global n, ⟨.routine, .unknown, none⟩)) n
  name _ n := isRespelling_spell t _ n
  call _ n := isRespelling_spell t _ n

end Renaming

/-! ### Expressions -/

namespace Expression

variable {name call : String → String}

@[simp] theorem hint_spell (e : Expression) : (e.spell name call).hint = e.hint := by
  cases e with
  | operation o operands type =>
    rw [spell_operation]
    -- the type and the family of the operator decide
    cases type <;> cases o <;> rfl
  | _ => simp [hint]

theorem HasArity.spell {e : Expression} (h : e.HasArity) : (e.spell name call).HasArity := by
  cases e with
  | operation o operands type =>
    rw [spell_operation]
    exact (List.length_map _).trans h
  | _ => simp [HasArity]

theorem IsTyped.spell {e : Expression} (h : e.IsTyped) : (e.spell name call).IsTyped := by
  cases e with
  | operation o operands type =>
    rw [spell_operation]
    rcases operands with _ | ⟨a, _ | ⟨b, _ | ⟨c, operands⟩⟩⟩
    · trivial
    · simpa [IsTyped] using h
    · simpa [IsTyped] using h
    · trivial
  | _ => simp [IsTyped]

/-! ### First tokens -/

/-- The token that an operand opens with. -/
def opening : Expression → Token
  | .value (.uint64 n) => .number n
  | .value (.string s) => .text s
  | .name n => .word n
  | .call f _ => .word f
  | .operation _ _ _ => .lparen

/-- The token that an expression opens with where it is no operand: an operation with two operands
opens as the left of them does. -/
def firstToken : Expression → Token
  | .operation _ [a, _] _ => a.opening
  | .operation o _ _ => .operator o
  | e => e.opening

theorem head?_tokens_operand (l : Layout) (e : Expression) :
    (tokens (e.pieces l true)).head? = some e.opening := by
  cases e with
  | value v => cases v <;> simp [pieces, opening]
  | name n => simp [pieces, opening]
  | call f args => simp [pieces, opening]
  | operation o operands type =>
    rw [pieces_nested]
    rfl

theorem head?_tokens_pieces (l : Layout) {e : Expression} (h : e.HasArity) :
    (tokens (e.pieces l false)).head? = some e.firstToken := by
  cases e with
  | value v => cases v <;> simp [pieces, firstToken, opening]
  | name n => simp [pieces, firstToken, opening]
  | call f args => simp [pieces, firstToken, opening]
  | operation o operands type =>
    have hoperand := head?_tokens_operand l
    rw [HasArity] at h
    -- the symbol stands before one operand and between two; the operator takes no other number
    rcases operands with _ | ⟨a, _ | ⟨b, _ | ⟨c, operands⟩⟩⟩
    · split at h <;> cases h
    · simp [pieces, piecesOf, firstToken]
    · simp [pieces, piecesOf, join_cons_cons, firstToken, List.head?_append, hoperand a]
    · split at h <;> simp at h

/-! ### Expressions under other identifiers -/

section Respelled

variable (hname : ∀ n, IsRespelling n (name n)) (hcall : ∀ n, IsRespelling n (call n))

include hname hcall

theorem Spellable.spell {e : Expression} (h : e.Spellable) : (e.spell name call).Spellable := by
  cases e with
  | value l => rwa [spell_value]
  | name n =>
    rw [spell_name]
    exact (hname n).isWord h
  | call f args =>
    rw [spell_call]
    exact (hcall f).isWord h
  | operation o operands type =>
    rw [spell_operation]
    trivial

theorem claimsLine_opening_spell {e : Expression} (h : e.opening.claimsLine = false) :
    (e.spell name call).opening.claimsLine = false := by
  cases e with
  | value v => rwa [spell_value]
  | name n =>
    rw [spell_name]
    exact (hname n).claimsLine h
  | call f args =>
    rw [spell_call]
    exact (hcall f).claimsLine h
  | operation o operands type =>
    rw [spell_operation]
    exact h

/-- An expression that does not open like something else does not do so under other identifiers. -/
theorem claimsLine_firstToken_spell {e : Expression} (h : e.firstToken.claimsLine = false) :
    (e.spell name call).firstToken.claimsLine = false := by
  cases e with
  | value v => exact claimsLine_opening_spell (e := .value v) hname hcall h
  | name n => exact claimsLine_opening_spell (e := .name n) hname hcall h
  | call f args => exact claimsLine_opening_spell (e := .call f args) hname hcall h
  | operation o operands type =>
    rw [spell_operation]
    rcases operands with _ | ⟨a, _ | ⟨b, _ | ⟨c, operands⟩⟩⟩
    · rfl
    · rfl
    · exact claimsLine_opening_spell hname hcall h
    · rfl

end Respelled

end Expression

/-! ### Statements -/

namespace StatementKind

variable (name call : String → String) (k : StatementKind)

@[simp] theorem target?_spell : (k.spell name call).target? = k.target?.map name := by
  cases k <;> rfl

@[simp] theorem type?_spell : (k.spell name call).type? = k.type? := by
  cases k <;> rfl

@[simp] theorem bare?_spell :
    (k.spell name call).bare? = k.bare?.map (Expression.spell name call) := by
  cases k <;> rfl

@[simp] theorem text?_spell : (k.spell name call).text? = k.text? := by
  cases k <;> rfl

@[simp] theorem isExecutable_spell : (k.spell name call).isExecutable = k.isExecutable := by
  cases k <;> rfl

@[simp] theorem isDim_spell : (k.spell name call).isDim = k.isDim := by
  cases k <;> rfl

theorem spell_ne_noOp {k : StatementKind} (h : k ≠ .noOp) : k.spell name call ≠ .noOp := by
  cases k with
  | noOp => exact absurd rfl h
  | _ => nofun

end StatementKind

namespace Statement

variable {name call : String → String}

/-- What holds of a node spelled anew if it holds of the node passes from the nodes of a statement to
those of the statement spelled anew. -/
theorem forall_nodes_spell {P : Expression → Prop}
    (hP : ∀ {n : Expression}, P n → P (n.spell name call)) {s : Statement}
    (h : ∀ e ∈ s.kind.expression?, ∀ n ∈ e.nodes, P n) :
    ∀ e ∈ (s.spell name call).kind.expression?, ∀ n ∈ e.nodes, P n := by
  intro e' he' n' hn'
  rw [kind_spell, StatementKind.expression?_spell] at he'
  obtain ⟨e, he, rfl⟩ := Option.map_eq_some_iff.mp he'
  rw [Expression.nodes_spell] at hn'
  obtain ⟨n, hn, rfl⟩ := List.mem_map.mp hn'
  exact hP (h e he n hn)

section Respelled

variable (hname : ∀ n, IsRespelling n (name n)) (hcall : ∀ n, IsRespelling n (call n))

include hname hcall

theorem Unclaimed.spell {s : Statement} (harity : s.HasArity) (h : s.Unclaimed) :
    (s.spell name call).Unclaimed := by
  intro e' he'
  rw [kind_spell, StatementKind.bare?_spell] at he'
  obtain ⟨e, he, rfl⟩ := Option.map_eq_some_iff.mp he'
  have hroot : e.HasArity := by
    refine harity e ?_ e (Expression.mem_nodes_self e)
    obtain ⟨line, kind⟩ := s
    cases kind <;> cases he
    rfl
  -- the first token changes only where it is a name, and a new name claims no line
  have hunclaimed := h e he
  rw [Expression.head?_tokens_pieces .spaced hroot] at hunclaimed
  rw [Expression.head?_tokens_pieces .spaced hroot.spell]
  rintro _ ⟨⟩
  exact Expression.claimsLine_firstToken_spell hname hcall (hunclaimed _ rfl)

theorem Spellable.spell {s : Statement} (h : s.Spellable) : (s.spell name call).Spellable := by
  refine ⟨?_, forall_nodes_spell (.spell hname hcall) h.nodes⟩
  intro n' hn'
  rw [kind_spell, StatementKind.target?_spell] at hn'
  obtain ⟨n, hn, rfl⟩ := Option.map_eq_some_iff.mp hn'
  exact (hname n).isWord (h.target n hn)

/-- A statement that can be written can be written with other identifiers. -/
theorem Writable.spell {s : Statement} (h : s.Writable) : (s.spell name call).Writable := by
  constructor
  case spellable => exact h.spellable.spell hname hcall
  case arity => exact forall_nodes_spell .spell h.arity
  case declarable =>
    intro type htype
    rw [kind_spell, StatementKind.type?_spell] at htype
    exact h.declarable type htype
  case unclaimed => exact h.unclaimed.spell hname hcall h.arity

end Respelled

end Statement

/-! ### Items -/

namespace Item

variable (name call : String → String)

theorem Unsplit.spell {ss : List Statement} (h : Unsplit ss) :
    Unsplit (ss.map (·.spell name call)) := by
  intro a c b hsub ha hb hc
  obtain ⟨l, hl, heq⟩ := List.sublist_map_iff.mp hsub
  rcases l with _ | ⟨a, _ | ⟨c, _ | ⟨b, _ | ⟨d, l⟩⟩⟩⟩ <;> cases heq
  refine h a c b hl ?_ ?_ ?_
  · rwa [Statement.kind_spell, StatementKind.isDim_spell] at ha
  · rwa [Statement.kind_spell, StatementKind.isDim_spell] at hb
  · rwa [Statement.kind_spell, StatementKind.isExecutable_spell] at hc

end Item

/-! ### Functions and programs -/

/-- A function takes up the same lines whatever its identifiers. -/
theorem Routine.takenLines_spell (s : Spelling) (r : Routine) :
    (r.spell s).takenLines = r.takenLines := by
  refine takenLines_map (f := Statement.spell (s.name r.name) (s.call r.name)) rfl
    (fun _ _ _ => rfl) (fun st hst => ?_) (fun st => ?_) fun _ => rfl
  · rw [Statement.kind_spell, StatementKind.isDim_spell, hst]
  · exact StatementKind.isExecutable_spell _ _ _

theorem Routine.Spellable.spell {s : Spelling} (hs : s.Unclaiming) {r : Routine} (h : r.Spellable) :
    (r.spell s).Spellable := by
  constructor
  case name => exact (hs.routine r.name).isWord h.name
  case params =>
    intro x' hx'
    obtain ⟨x, hx, rfl⟩ := List.mem_map.mp hx'
    exact (hs.name r.name x.name).isWord (h.params x hx)
  case statements =>
    intro st' hst'
    obtain ⟨st, hst, rfl⟩ := List.mem_map.mp hst'
    exact (h.statements st hst).spell (hs.name r.name) (hs.call r.name)

theorem Routine.Writable.spell {s : Spelling} (hs : s.Unclaiming) {r : Routine} (h : r.Writable) :
    (r.spell s).Writable := by
  constructor
  case name => exact (hs.routine r.name).isWord h.name
  case returnType => exact h.returnType
  case params =>
    intro x' hx'
    obtain ⟨x, hx, rfl⟩ := List.mem_map.mp hx'
    obtain ⟨hword, htype⟩ := h.params x hx
    exact ⟨(hs.name r.name x.name).isWord hword, htype⟩
  case statements =>
    intro st' hst'
    obtain ⟨st, hst, rfl⟩ := List.mem_map.mp hst'
    exact (h.statements st hst).spell (hs.name r.name) (hs.call r.name)

namespace Program

theorem commentTexts_spell (s : Spelling) (p : Program) :
    (p.spell s).commentTexts = p.commentTexts := by
  rw [commentTexts, commentTexts, spell, List.flatMap_map]
  congr 1
  refine List.flatMap_congr fun r _ => ?_
  rw [Routine.spell, List.filterMap_map]
  congr 1
  exact List.filterMap_congr fun st _ => StatementKind.text?_spell _ _ _

/-- The identifiers of a program can be written under short names if they can be. -/
theorem Spellable.minified {p : Program} (hp : p.Spellable) : p.minified.Spellable := by
  rw [minified_eq_spell]
  intro q hq
  obtain ⟨r, hr, rfl⟩ := List.mem_map.mp hq
  exact (hp r hr).spell (Renaming.unclaiming_spelling _ _)

/-- A program that source text can express stays such a program under other identifiers, if these are
written by words that are not taken for keywords and the check of names passes again. -/
theorem Renderable.spell {p : Program} (hp : p.Renderable) {s : Spelling} (hs : s.Unclaiming)
    (hnames : (p.spell s).checkNames (.ofProgram (p.spell s)) = .ok ()) :
    (p.spell s).Renderable := by
  have hmem : ∀ q ∈ (p.spell s).routines, ∃ r ∈ p.routines, r.spell s = q :=
    fun q hq => List.mem_map.mp hq
  constructor
  case writable =>
    intro q hq
    obtain ⟨r, hr, rfl⟩ := hmem q hq
    exact (hp.writable r hr).spell hs
  case typed =>
    intro q hq st' hst'
    obtain ⟨r, hr, rfl⟩ := hmem q hq
    obtain ⟨st, hst, rfl⟩ := List.mem_map.mp hst'
    exact Statement.forall_nodes_spell .spell (hp.typed r hr st hst)
  case texts =>
    rw [commentTexts_spell]
    exact hp.texts
  case unsplit =>
    intro q hq
    obtain ⟨r, hr, rfl⟩ := hmem q hq
    exact (hp.unsplit r hr).spell _ _
  case noOp =>
    intro q hq st' hst'
    obtain ⟨r, hr, rfl⟩ := hmem q hq
    obtain ⟨st, hst, rfl⟩ := List.mem_map.mp hst'
    exact StatementKind.spell_ne_noOp _ _ (hp.noOp r hr st hst)
  case lines =>
    have hlines := checkLines_eq_ok.mp hp.lines
    rw [checkLines_eq_ok]
    intro q hq
    obtain ⟨r, hr, rfl⟩ := hmem q hq
    rw [Routine.takenLines_spell]
    exact hlines r hr
  case names => exact hnames

/-- Source text can express a program under short names if it can express the program. -/
theorem Renderable.minified {p : Program} (hp : p.Renderable) : p.minified.Renderable := by
  have hnames := checkNames_minified hp.names
  rw [minified_eq_spell] at hnames ⊢
  exact hp.spell (Renaming.unclaiming_spelling _ _) hnames

/-- **What is generated under short names is read as the program with short names**, in either layout;
where comments are left out, it is read as that program without its comments and headers. -/
theorem read_generate_minified {p : Program} (hp : p.Renderable) (comments compact : Bool) :
    read .default (p.generate ⟨true, comments, compact⟩).code
      = .ok (if comments then (p.minify (.ofProgram p)).1
          else (p.minify (.ofProgram p)).1.withoutComments) := by
  have hcode : (p.generate ⟨true, comments, compact⟩).code
      = p.minified.source (GenerateOptions.layout ⟨true, comments, compact⟩) comments := rfl
  have hminified := hp.minified
  rw [hcode]
  cases comments with
  | true => exact hminified.read_source _
  | false =>
    rw [source, ← pieces_withoutComments _ hminified.noOp]
    exact hminified.withoutComments.read_source _

/-- A program with a private function, whose parameter is spelled like the short name of a variable and
opens a bare expression, and with comments on the line of a declaration and behind the functions. -/
def purse : Program where
  headers := ["the end"]
  routines := [
    ⟨"Deposit", .uint64, [⟨"amount", .uint64⟩],
      [⟨10, .dim "total" .uint64⟩, ⟨10, .dim "step" .uint64⟩, ⟨10, .comment "two counters"⟩,
        ⟨20, .assign "step" (.operation (.arithmetic .mul)
          [.name "amount", .call "fee" [.name "total"]] .uint64)⟩,
        ⟨30, .result (.name "step")⟩],
      ["takes an amount"]⟩,
    ⟨"fee", .uint64, [⟨"v0", .uint64⟩],
      [⟨10, .evaluate (.operation (.comparison .lt) [.name "v0", .call "itoa" [.name "v0"]] .uint64)⟩,
        ⟨20, .result (.value (.uint64 1))⟩],
      []⟩]

theorem read_generate_minified_purse : purse.Renderable ∧
    read .default (purse.generate ⟨true, true, true⟩).code
      = .ok (purse.minify (.ofProgram purse)).1 ∧
    read .default (purse.generate ⟨true, false, false⟩).code
      = .ok (purse.minify (.ofProgram purse)).1.withoutComments := by
  have h : purse.Renderable := by decide +kernel
  exact ⟨h, read_generate_minified h true true, read_generate_minified h false false⟩

end Program

end ContractBasic
