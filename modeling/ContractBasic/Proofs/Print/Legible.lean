/-
Printed programs are legible.

The tokens that the printer writes keep apart in every layout, whatever the operators, the numbers
of operands, the comments and the lines are.  Names must be words and texts must not hold quotes.

* `Expression.Spellable`, `Routine.Spellable`, `Program.Spellable` — names are words, and texts do not
  hold quotes
* `Expression.phrase_pieces`, `StatementKind.phrase_body` — printed expressions and statements are
  phrases
* `Program.legible_pieces` — a printed program is legible
-/
import ContractBasic.Print.Source
import ContractBasic.Proofs.Print.Comment
import ContractBasic.Proofs.Program.Items
import ContractBasic.Proofs.Program.Nodes

namespace ContractBasic

namespace Piece

/-! ### Lists -/

@[simp] theorem join_nil (separator : List Piece) : join separator [] = [] := rfl

@[simp] theorem join_singleton (separator part : List Piece) : join separator [part] = part := by
  simp [join]

theorem join_cons_cons (separator part next : List Piece) (parts : List (List Piece)) :
    join separator (part :: next :: parts) = part ++ separator ++ join separator (next :: parts) := by
  simp [join, List.intersperse]

/-- The tokens of a list are those of its parts, with those of the separator between them. -/
theorem tokens_join (separator : List Piece) (parts : List (List Piece)) :
    tokens (join separator parts) = ((parts.map tokens).intersperse (tokens separator)).flatten := by
  induction parts with
  | nil => rfl
  | cons ps parts ih =>
    rcases parts with _ | ⟨qs, parts⟩
    · simp
    · rw [join_cons_cons, tokens_append, tokens_append, ih]
      simp

/-! ### Layouts -/

@[simp] theorem tokens_gap (l : Layout) : tokens l.gap = [] := by
  cases l <;> rfl

theorem tokens_comma (l : Layout) : tokens l.comma = [.comma] := by
  cases l <;> rfl

theorem tokens_commentStart (l : Layout) : tokens l.commentStart = [] := by
  cases l <;> rfl

theorem tokens_separator (l : Layout) : tokens l.separator = [] := by
  cases l <;> rfl

theorem tokens_linePieces (l : Layout) (n : UInt64) : tokens (linePieces l n) = [.number n] := by
  cases l <;> rfl

/-! ### Phrases in lists -/

/-- Phrases with commas between them. -/
theorem phrase_join_comma (l : Layout) {parts : List (List Piece)}
    (h : ∀ ps ∈ parts, Phrase ps) : Phrase (join l.comma parts) := by
  induction parts with
  | nil => exact phrase_nil
  | cons ps parts ih =>
    have hps := h ps List.mem_cons_self
    rcases parts with _ | ⟨qs, parts⟩
    · rw [join_singleton]
      exact hps
    · intro rest hrest hnext
      have hlater := ih (fun ps hp => h ps (List.mem_cons_of_mem _ hp)) rest hrest hnext
      rw [join_cons_cons, List.append_assoc, List.append_assoc]
      cases l with
      | compact => exact hps _ (by simpa [Layout.comma]) (breaks_of_next rfl (by decide))
      | spaced => exact hps _ (by simpa [Layout.comma]) (breaks_of_next rfl (by decide))

/-- An operator before an operand. -/
theorem legible_operator (l : Layout) (o : Operator) {ps : List Piece} (h : Legible ps)
    (hstarts : Starts (next ps)) : Legible (token (.operator o) :: (l.gap ++ ps)) := by
  cases l with
  | compact => exact ⟨trivial, hstarts.endsBefore_operator o, h⟩
  | spaced => exact ⟨trivial, endsBefore_operator_space o ps, (legible_space ps).mpr h⟩

/-- Operands with an operator between them. -/
theorem phrase_join_operator (l : Layout) (o : Operator) {parts : List (List Piece)}
    (h : ∀ ps ∈ parts, Operand ps) :
    Phrase (join (l.gap ++ token (.operator o) :: l.gap) parts) := by
  induction parts with
  | nil => exact phrase_nil
  | cons ps parts ih =>
    have hps := h ps List.mem_cons_self
    rcases parts with _ | ⟨qs, parts⟩
    · rw [join_singleton]
      exact hps.phrase
    · intro rest hrest hnext
      have hlater := ih (fun ps hp => h ps (List.mem_cons_of_mem _ hp)) rest hrest hnext
      -- the operand behind the operator must not start with what makes the operator a longer one
      have hstarts : Starts (next (join (l.gap ++ token (.operator o) :: l.gap) (qs :: parts)
          ++ rest)) := by
        have hqs := h qs (by simp)
        rcases parts with _ | ⟨rs, parts⟩
        · rw [join_singleton]
          exact hqs.starts rest
        · rw [join_cons_cons, List.append_assoc, List.append_assoc]
          exact hqs.starts _
      have hoperator := legible_operator l o hlater hstarts
      rw [join_cons_cons]
      cases l with
      | compact =>
        have hbreaks := breaks_operator o
          (join [token (.operator o)] (qs :: parts) ++ rest)
        simpa [Layout.gap] using hps.phrase _ hoperator hbreaks
      | spaced =>
        have hspace := (legible_space _).mpr hoperator
        simpa [Layout.gap] using hps.phrase _ hspace (breaks_of_next rfl (by decide))

end Piece

/-! ### Expressions -/

/-- Whether the name or the text at a node can be written: names are words, and a text does not hold
a quote. -/
def Expression.Spellable : Expression → Prop
  | .value (.uint64 _) | .operation _ _ _ => True
  | .value (.string s) => '"' ∉ s.toList
  | .name n => IsWord n
  | .call f _ => IsWord f

instance : DecidablePred Expression.Spellable
  | .value (.uint64 _) | .operation _ _ _ => isTrue trivial
  | .value (.string s) => inferInstanceAs (Decidable ('"' ∉ s.toList))
  | .name n => inferInstanceAs (Decidable (IsWord n))
  | .call f _ => inferInstanceAs (Decidable (IsWord f))

namespace Expression

open Piece

theorem piecesOf_eq_map (l : Layout) (nested : Bool) (es : List Expression) :
    piecesOf l nested es = es.map (pieces l nested) := by
  induction es with
  | nil => rfl
  | cons e es ih => rw [piecesOf, ih, List.map_cons]

theorem starts_word {w : String} (hw : IsWord w) (ps : List Piece) : Starts (next (word w :: ps)) := by
  obtain ⟨c, cs, hcs, hc, -⟩ := isWord_iff.mp hw
  refine ⟨c, ?_, .inl (isAlphanum_of_isAlpha hc)⟩
  simp [next, word, chars, Token.spelling, hcs]

theorem starts_number (n : UInt64) (ps : List Piece) : Starts (next (number n :: ps)) := by
  obtain ⟨c, cs, hcs⟩ := List.exists_cons_of_ne_nil (Text.numeral_ne_nil 10 n.toNat)
  have hc : c.isDigit = true := Text.isDigit_of_mem_numeral (hcs ▸ List.mem_cons_self)
  refine ⟨c, ?_, .inl (isAlphanum_of_isDigit hc)⟩
  simp [next, number, chars, Token.spelling, Text.decimal, hcs]

/-- An operation inside an operation stands in parentheses. -/
theorem pieces_nested (l : Layout) (o : Operator) (operands : List Expression) (type : ValueType) :
    (operation o operands type).pieces l true
      = token .lparen :: ((operation o operands type).pieces l false ++ [token .rparen]) := by
  simp [pieces]

/-- A printed expression is a phrase, and an operand where it stands nested. -/
theorem phrase_pieces (l : Layout) {e : Expression} (he : ∀ n ∈ e.nodes, n.Spellable) :
    Phrase (e.pieces l false) ∧ Operand (e.pieces l true) := by
  -- both at once: an operation prints its operands nested, and a call prints its arguments as they are
  induction e with
  | value v =>
    have hv : (value v).Spellable := he _ (mem_nodes_self _)
    cases v with
    | uint64 n => exact ⟨phrase_number n, phrase_number n, fun rest => starts_number n rest⟩
    | string s =>
      have hphrase : Phrase [token (.text s)] := fun rest h _ => ⟨hv, trivial, h⟩
      exact ⟨hphrase, hphrase, fun rest => ⟨'"', by simp [next, pieces, chars, Token.spelling], by simp⟩⟩
  | name n =>
    have hn : IsWord n := he _ (mem_nodes_self _)
    exact ⟨phrase_word hn, phrase_word hn, fun rest => starts_word hn rest⟩
  | call f args ih =>
    have hf : IsWord f := he _ (mem_nodes_self _)
    have hargs : Phrase (join l.comma (args.map (pieces l false))) := by
      refine phrase_join_comma l ?_
      intro ps hps
      obtain ⟨a, ha, rfl⟩ := List.mem_map.mp hps
      exact (ih a ha fun n hn => he n (by simp; exact .inl ⟨a, ha, hn⟩)).1
    have hphrase : ∀ nested, Phrase ((call f args).pieces l nested) := by
      intro nested rest hrest hnext
      have hinner := hargs (token .rparen :: rest) ((legible_rparen rest).mpr hrest)
        (breaks_of_next rfl (by decide))
      rw [pieces, piecesOf_eq_map]
      have h := legible_word hf (breaks_of_next rfl (by decide)) ((legible_lparen _).mpr hinner)
      simpa using h
    refine ⟨hphrase false, hphrase true, fun rest => ?_⟩
    rw [pieces]
    exact starts_word hf _
  | operation o operands type ih =>
    have hoperands : ∀ ps ∈ operands.map (pieces l true), Operand ps := by
      intro ps hps
      obtain ⟨a, ha, rfl⟩ := List.mem_map.mp hps
      exact (ih a ha fun n hn => he n (by simp; exact .inl ⟨a, ha, hn⟩)).2
    have hbody : Phrase ((operation o operands type).pieces l false) := by
      rw [pieces, piecesOf_eq_map]
      simp only [Bool.false_eq_true, if_false]
      -- a single operand stands behind the operator; any other number of them is a list
      split
      · rename_i ps heq
        have hps : Operand ps := hoperands ps (by rw [heq]; simp)
        intro rest hrest hnext
        have h := legible_operator l o (hps.phrase rest hrest hnext) (hps.starts rest)
        simpa using h
      · exact phrase_join_operator l o hoperands
    have hnested := pieces_nested l o operands type
    refine ⟨hbody, ?_, fun rest => ?_⟩
    · -- between parentheses the body is before a character that ends every token
      intro rest hrest hnext
      have h := hbody (token .rparen :: rest) ((legible_rparen rest).mpr hrest)
        (breaks_of_next rfl (by decide))
      rw [hnested]
      simpa using h
    · rw [hnested]
      exact ⟨'(', rfl, by simp⟩

end Expression

/-! ### Statements -/

/-- The name that a statement declares or assigns to. -/
def StatementKind.target? : StatementKind → Option String
  | .dim n _ | .assign n _ => some n
  | _ => none

/-- Whether the names and texts of a statement can be written. -/
structure Statement.Spellable (s : Statement) : Prop where
  target : ∀ n ∈ s.kind.target?, IsWord n
  nodes : ∀ e ∈ s.kind.expression?, ∀ n ∈ e.nodes, n.Spellable

instance : DecidablePred Statement.Spellable := fun s =>
  decidable_of_iff ((∀ n ∈ s.kind.target?, IsWord n) ∧
    ∀ e ∈ s.kind.expression?, ∀ n ∈ e.nodes, n.Spellable)
    ⟨fun h => ⟨h.1, h.2⟩, fun h => ⟨h.target, h.nodes⟩⟩

theorem ValueType.isWord_keyword (type : ValueType) : IsWord type.keyword := by
  cases type <;> decide

open Piece

theorem Piece.Phrase.append_space {ps qs : List Piece} (hps : Phrase ps) (hqs : Phrase qs) :
    Phrase (ps ++ space :: qs) := by
  intro rest hrest hnext
  have h := hps (space :: (qs ++ rest)) ((legible_space _).mpr (hqs rest hrest hnext))
    (breaks_of_next rfl (by decide))
  simpa using h

theorem phrase_jumpPieces (target : UInt64) : Phrase (jumpPieces target) :=
  (phrase_number target).word_space (by decide)

theorem phrase_dimPieces (l : Layout) {names : List String} (h : ∀ n ∈ names, IsWord n)
    (type : ValueType) : Phrase (dimPieces l names type) := by
  have hnames : Phrase (join l.comma (names.map fun n => [word n])) := by
    refine phrase_join_comma l ?_
    intro ps hps
    obtain ⟨n, hn, rfl⟩ := List.mem_map.mp hps
    exact phrase_word (h n hn)
  have htype : Phrase (word "AS" :: space :: [word type.keyword]) :=
    (phrase_word type.isWord_keyword).word_space (by decide)
  have hdim : IsWord "DIM" := by decide
  simpa [dimPieces] using (hnames.append_space htype).word_space hdim

/-- A printed statement is a phrase. -/
theorem StatementKind.phrase_body (l : Layout) {s : Statement} (hs : s.Spellable) :
    Phrase (s.kind.body l) := by
  obtain ⟨line, kind⟩ := s
  have hexpr : ∀ e, kind.expression? = some e → Phrase (e.pieces l false) :=
    fun e he => (Expression.phrase_pieces l (hs.nodes e he)).1
  cases kind with
  | noOp => exact phrase_nil
  | comment text => exact phrase_nil
  | result e => exact (hexpr e rfl).word_space (by decide)
  | evaluate e => exact hexpr e rfl
  | branch c n otherwise =>
    have hthen : ∀ ps, Phrase ps → Phrase (word "THEN" :: space :: ps) :=
      fun ps h => h.word_space (by decide)
    have hif : IsWord "IF" := by decide
    cases otherwise with
    | none =>
      have h := ((hexpr c rfl).append_space (hthen _ (phrase_jumpPieces n))).word_space hif
      simpa [body] using h
    | some m =>
      have helse : Phrase (word "ELSE" :: space :: jumpPieces m) :=
        (phrase_jumpPieces m).word_space (by decide)
      have h := ((hexpr c rfl).append_space
        (hthen _ ((phrase_jumpPieces n).append_space helse))).word_space hif
      simpa [body] using h
  | dim n type =>
    refine phrase_dimPieces l ?_ type
    intro m hm
    rw [List.mem_singleton.mp hm]
    exact hs.target n rfl
  | assign n e =>
    intro rest hrest hnext
    -- legible from the end: the expression, then the sign, the name and the keyword before it
    have hassign := legible_assign (hexpr e rfl rest hrest hnext)
    have htarget := legible_word (hs.target n rfl) (breaks_of_next rfl (by decide))
      ((legible_space _).mpr hassign)
    exact legible_word (by decide) (breaks_of_next rfl (by decide))
      ((legible_space _).mpr htarget)
  | goto n => exact phrase_jumpPieces n

/-! ### Items -/

namespace Item

theorem isCommentOn_eq (line : UInt64) (i : Item) :
    i.isCommentOn line = (i.isComment && i.line = line) := by
  cases i with
  | dims n names type => rfl
  | single s =>
    obtain ⟨n, kind⟩ := s
    cases kind <;> rfl

theorem eq_comment_of_isCommentOn {n : UInt64} {i : Item} (h : i.isCommentOn n = true) :
    ∃ text, i = .single ⟨n, .comment text⟩ := by
  rw [isCommentOn_eq, Bool.and_eq_true, decide_eq_true_eq] at h
  obtain ⟨m, text, rfl⟩ := eq_comment_of_isComment h.1
  exact ⟨text, by rw [← h.2]; rfl⟩

/-- What an item that is not a comment writes behind its line number. -/
def rest (l : Layout) : Item → List Piece
  | dims _ names type => .tab :: dimPieces l names type
  | single ⟨_, .noOp⟩ => []
  | single ⟨_, kind⟩ => .tab :: kind.body l

theorem pieces_of_not_comment (l : Layout) (open? : Option UInt64) (followed : Bool) {i : Item}
    (h : i.isComment = false) : i.pieces l open? followed = linePieces l i.line ++ i.rest l := by
  cases i with
  | dims n names type => rfl
  | single s =>
    obtain ⟨n, kind⟩ := s
    cases kind with
    | comment text => cases h
    | noOp => exact (List.append_nil _).symm
    | _ => rfl

theorem phrase_rest (l : Layout) {i : Item} (hi : ∀ s ∈ i.statements, s.Spellable) :
    Phrase (i.rest l) := by
  have htab : ∀ ps, Phrase ps → Phrase (tab :: ps) := by
    intro ps h rest hrest hnext
    exact (legible_tab _).mpr (h rest hrest hnext)
  cases i with
  | dims n names type =>
    refine htab _ (phrase_dimPieces l ?_ type)
    intro m hm
    exact (hi ⟨n, .dim m type⟩ (List.mem_map.mpr ⟨m, hm, rfl⟩)).target m rfl
  | single s =>
    have hbody := StatementKind.phrase_body l (hi s List.mem_cons_self)
    obtain ⟨n, kind⟩ := s
    cases kind with
    | noOp => exact phrase_nil
    | _ => exact htab _ hbody

end Item

theorem legible_linePieces (l : Layout) (n : UInt64) {rest : List Piece} (hrest : Legible rest)
    (hnext : Breaks (next rest)) : Legible (linePieces l n ++ rest) := by
  have h := legible_number (n := n) hnext hrest
  cases l with
  | compact => exact (legible_newline _).mpr h
  | spaced => exact (legible_newline _).mpr ((legible_tab _).mpr h)

theorem next_linePieces (l : Layout) (n : UInt64) (rest : List Piece) :
    next (linePieces l n ++ rest) = some '\n' := by
  cases l <;> rfl

/-- A comment, with what is printed in front of it, breaks off what is before. -/
theorem breaks_commentStart (l : Layout) (text : String) (followed : Bool) (rest : List Piece) :
    Breaks (next (l.commentStart ++ (commentPieces text followed ++ rest))) := by
  cases l with
  | compact =>
    rw [Layout.commentStart, List.nil_append, next_commentPieces]
    rintro c ⟨⟩
    decide
  | spaced => exact breaks_of_next rfl (by decide)

theorem legible_commentStart (l : Layout) {rest : List Piece} (hrest : Legible rest) :
    Legible (l.commentStart ++ rest) := by
  cases l with
  | compact => exact hrest
  | spaced => exact (legible_tab _).mpr hrest

/-- Whether a comment stands first among items, and belongs to a line. -/
def opensWithComment (line : UInt64) (items : List Item) : Bool :=
  (items.head?.map (Item.isCommentOn line)).getD false

theorem itemsPieces_cons (l : Layout) (open? : Option UInt64) (i : Item) (rest : List Item) :
    itemsPieces l open? (i :: rest)
      = i.pieces l open? (opensWithComment i.line rest) ++ itemsPieces l (some i.line) rest := rfl

/-- An item starts a new line, unless it is a comment behind the item before it. -/
theorem next_pieces (l : Layout) {open? : Option UInt64} (followed : Bool) {i : Item}
    (h : i.isComment = true → open? ≠ some i.line) (later : List Piece) :
    next (i.pieces l open? followed ++ later) = some '\n' := by
  cases hi : i.isComment with
  | false => rw [Item.pieces_of_not_comment l _ _ hi, List.append_assoc, next_linePieces]
  | true =>
    obtain ⟨m, text, rfl⟩ := Item.eq_comment_of_isComment hi
    have hopen : open? ≠ some m := h rfl
    simp only [Item.pieces, hopen, if_false, List.append_assoc]
    exact next_linePieces l m _

/-- Behind an item a new line starts, or a comment on its line. -/
theorem next_itemsPieces (l : Layout) (n : UInt64) (items : List Item) {rest : List Piece}
    (hnext : next rest = some '\n') :
    Breaks (next (itemsPieces l (some n) items ++ rest)) ∧ (opensWithComment n items = false →
      next (itemsPieces l (some n) items ++ rest) = some '\n') := by
  have hline : Breaks (some '\n') := by
    rintro c ⟨⟩
    decide
  cases items with
  | nil => exact ⟨hnext ▸ hline, fun _ => hnext⟩
  | cons i items =>
    rw [itemsPieces, List.append_assoc]
    -- only a comment of the same line is printed without a new line before it
    by_cases hcomment : i.isCommentOn n = true
    · refine ⟨?_, fun h => by simp [opensWithComment, hcomment] at h⟩
      obtain ⟨text, rfl⟩ := Item.eq_comment_of_isCommentOn hcomment
      simp only [Item.pieces, if_true, List.append_assoc]
      exact breaks_commentStart l text _ _
    · rw [next_pieces l _ ?_]
      · exact ⟨hline, fun _ => rfl⟩
      · intro hi hopen
        simp [Item.isCommentOn_eq, hi, Option.some.inj hopen] at hcomment

theorem next_itemsPieces_none (l : Layout) (items : List Item) {rest : List Piece}
    (hnext : next rest = some '\n') : next (itemsPieces l none items ++ rest) = some '\n' := by
  cases items with
  | nil => exact hnext
  | cons i items =>
    rw [itemsPieces, List.append_assoc]
    exact next_pieces l _ (fun _ => Option.some_ne_none _ ∘ Eq.symm) _

/-- Printed items are legible before a new line. -/
theorem legible_itemsPieces (l : Layout) (items : List Item)
    (hitems : ∀ i ∈ items, ∀ s ∈ i.statements, s.Spellable) {rest : List Piece}
    (hrest : Legible rest) (hnext : next rest = some '\n') (open? : Option UInt64) :
    Legible (itemsPieces l open? items ++ rest) := by
  -- the open line is the one of the item before, so it varies in the induction
  induction items generalizing open? with
  | nil => exact hrest
  | cons i items ih =>
    have hlater := ih (fun j hj => hitems j (List.mem_cons_of_mem _ hj)) (some i.line)
    obtain ⟨hbreaks, hline⟩ := next_itemsPieces l i.line items hnext
    rw [itemsPieces, List.append_assoc]
    cases hi : i.isComment with
    | false =>
      rw [Item.pieces_of_not_comment l _ _ hi, List.append_assoc]
      have hphrase := Item.phrase_rest l (hitems i List.mem_cons_self) _ hlater hbreaks
      refine legible_linePieces l i.line hphrase ?_
      cases hrow : i.rest l with
      | nil => exact hbreaks
      | cons p ps =>
        cases i with
        | dims m names type =>
          cases hrow
          exact breaks_of_next rfl (by decide)
        | single s =>
          obtain ⟨m, kind⟩ := s
          cases kind <;> cases hrow <;> exact breaks_of_next rfl (by decide)
    | true =>
      obtain ⟨m, text, rfl⟩ := Item.eq_comment_of_isComment hi
      -- a comment that nothing follows on its line may be a line comment, for then a new line starts
      have hcomment := legible_commentPieces text (opensWithComment m items) hlater
        fun hf c hc => Option.some.inj ((hline hf ▸ hc : c ∈ some '\n')).symm
      have hstart := legible_commentStart l hcomment
      simp only [Item.pieces, List.append_assoc]
      split
      · exact hstart
      · exact legible_linePieces l m hstart (breaks_commentStart l text _ _)

/-! ### Functions and programs -/

/-- Whether the names and texts of a function can be written. -/
structure Routine.Spellable (r : Routine) : Prop where
  name : IsWord r.name
  params : ∀ p ∈ r.params, IsWord p.name
  statements : ∀ s ∈ r.statements, s.Spellable

instance : DecidablePred Routine.Spellable := fun r =>
  decidable_of_iff (IsWord r.name ∧ (∀ p ∈ r.params, IsWord p.name) ∧
    ∀ s ∈ r.statements, s.Spellable)
    ⟨fun ⟨h₁, h₂, h₃⟩ => ⟨h₁, h₂, h₃⟩, fun h => ⟨h.name, h.params, h.statements⟩⟩

/-- Whether the names and texts of a program can be written. -/
def Program.Spellable (p : Program) : Prop := ∀ r ∈ p.routines, r.Spellable

instance : DecidablePred Program.Spellable := fun p =>
  inferInstanceAs (Decidable (∀ r ∈ p.routines, r.Spellable))

/-- The first line of a function is a phrase. -/
theorem Routine.phrase_heading (l : Layout) {r : Routine} (hr : r.Spellable) :
    Phrase (r.heading l) := by
  have hparams : Phrase (join l.comma
      (r.params.map fun p => [word p.name, space, word p.type.keyword])) := by
    refine phrase_join_comma l ?_
    intro ps hps
    obtain ⟨p, hp, rfl⟩ := List.mem_map.mp hps
    exact (phrase_word p.type.isWord_keyword).word_space (hr.params p hp)
  intro rest hrest hnext
  -- from the last word of the line to the first
  have htype := legible_word r.returnType.isWord_keyword hnext hrest
  have hinner := hparams (token .rparen :: space :: word r.returnType.keyword :: rest)
    ((legible_rparen _).mpr ((legible_space _).mpr htype)) (breaks_of_next rfl (by decide))
  have hname := legible_word hr.name (breaks_of_next rfl (by decide)) ((legible_lparen _).mpr hinner)
  have h := legible_word (w := "Function") (by decide) (breaks_of_next rfl (by decide))
    ((legible_space _).mpr hname)
  simpa [heading] using h

/-- A printed function is a phrase. -/
theorem Routine.phrase_pieces (l : Layout) (comments : Bool) {r : Routine} (hr : r.Spellable) :
    Phrase (r.pieces l comments) := by
  intro rest hrest hnext
  -- each part is legible before those behind it: the last words, the items, the heading, the comments
  have hend : Legible ([newline, word "End", space, word "Function"] ++ rest) := by
    refine (legible_newline _).mpr (legible_word (by decide) (breaks_of_next rfl (by decide)) ?_)
    exact (legible_space _).mpr (legible_word (by decide) hnext hrest)
  have hitems := legible_itemsPieces l
    (Item.ofStatements (r.statements.filter fun s => comments || s.kind.isExecutable))
    (fun i hi s hs => hr.statements s
      (List.mem_filter.mp (Item.mem_of_mem_statements hi hs)).1) hend rfl none
  have hbreaks : Breaks (next (itemsPieces l none (Item.ofStatements
      (r.statements.filter fun s => comments || s.kind.isExecutable)) ++
      ([newline, word "End", space, word "Function"] ++ rest))) :=
    breaks_of_next (next_itemsPieces_none l _ rfl) (by decide)
  have hheading := phrase_heading l hr _ hitems hbreaks
  have hcomments : ∀ (texts : List String) {later : List Piece}, Legible later →
      Legible (texts.flatMap (fun text => commentPieces text false ++ [newline]) ++ later) := by
    intro texts later hlater
    induction texts with
    | nil => exact hlater
    | cons text texts ih =>
      have h := legible_commentPieces text false ((legible_newline _).mpr ih)
        (fun _ c hc => by cases hc; rfl)
      simpa using h
  have h := hcomments (if comments then r.comments else []) hheading
  simpa [pieces] using h

/-- The comments at the end of a program are legible. -/
theorem legible_headerPieces (headers : List String) : Legible (headerPieces headers) := by
  have h : ∀ text : String, ∀ later : List Piece, Legible later →
      (∀ c ∈ next later, c = '\n') → Legible (commentPieces text false ++ later) :=
    fun text later hlater hnext => legible_commentPieces text false hlater fun _ => hnext
  induction headers with
  | nil => trivial
  | cons text headers ih =>
    rcases headers with _ | ⟨text', headers⟩
    · simpa [headerPieces] using h text [] trivial nofun
    · rw [headerPieces, List.map_cons, List.map_cons, join_cons_cons, List.append_assoc]
      refine h text _ ((legible_newline _).mpr ih) ?_
      rintro c ⟨⟩
      rfl

/-- **A printed program is legible**, in every layout and with or without its comments. -/
theorem Program.legible_pieces (l : Layout) (comments : Bool) {p : Program} (hp : p.Spellable) :
    Legible (p.pieces l comments) := by
  -- from the last part to the first: before a separator or the end, each function is legible
  have hjoin : ∀ (parts : List (List Piece)) (trailing : List (List Piece)),
      (∀ ps ∈ parts, Phrase ps) → Legible (join l.separator trailing) →
      Legible (join l.separator (parts ++ trailing)) := by
    intro parts trailing hparts htrailing
    induction parts with
    | nil => exact htrailing
    | cons ps parts ih =>
      have hps := hparts ps List.mem_cons_self
      have hlater := ih fun qs hqs => hparts qs (List.mem_cons_of_mem _ hqs)
      rw [List.cons_append]
      rcases hrow : parts ++ trailing with _ | ⟨qs, rows⟩
      · simpa using hps [] trivial breaks_nil
      · rw [hrow] at hlater
        rw [join_cons_cons, List.append_assoc]
        cases l with
        | compact => exact hps _ ((legible_newline _).mpr hlater) (breaks_of_next rfl (by decide))
        | spaced =>
          exact hps _ ((legible_newline _).mpr ((legible_newline _).mpr hlater))
            (breaks_of_next rfl (by decide))
  have htrailing : Legible (join l.separator
      (if comments ∧ p.headers ≠ [] then [headerPieces p.headers] else [])) := by
    split
    · simpa using legible_headerPieces p.headers
    · trivial
  refine hjoin _ _ ?_ htrailing
  intro ps hps
  obtain ⟨r, hr, rfl⟩ := List.mem_map.mp hps
  exact Routine.phrase_pieces l comments (hp r hr)

end ContractBasic
