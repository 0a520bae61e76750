/-
What a program that was read is like.

The lexer and the grammar leave their mark on a program: its names are words, its texts hold no
quotes, its operations have the operands they take, and its comments are trimmed.

* `Program.WellFormed` — programs as they come from texts
* `isCommentText_cleanComment` — the text of a comment token is one that a comment can have
* `Program.wellFormed_of_evaluate` — what a text is evaluated to is well formed
* `Program.WellFormed.readback_eq_self_iff` — when a well-formed program is read back as it is
-/
import ContractBasic.Program.Read
import ContractBasic.Proofs.Grammar.Remarks
import ContractBasic.Proofs.Print.Readback
import ContractBasic.Proofs.Program.Lines
import ContractBasic.Proofs.Token.Lexeme

namespace ContractBasic

open ParseTree

/-! ### Comments -/

namespace Text

theorem head?_dropWhile (cs : List Char) :
    ∀ c ∈ (cs.dropWhile isBlank).head?, isBlank c = false := by
  intro c hc
  have h := List.head?_dropWhile_not isBlank cs
  rw [hc] at h
  exact h

theorem trimRight_isPrefix (cs : List Char) : trimRight cs <+: cs := by
  rw [trimRight, ← List.reverse_suffix, List.reverse_reverse]
  exact List.dropWhile_suffix _

theorem trim_infix (cs : List Char) : trim cs <:+: cs :=
  (trimRight_isPrefix _).isInfix.trans (List.dropWhile_suffix _).isInfix

theorem head?_trim (cs : List Char) : ∀ c ∈ (trim cs).head?, isBlank c = false := by
  obtain ⟨rest, hrest⟩ := trimRight_isPrefix (cs.dropWhile isBlank)
  intro c hc
  refine head?_dropWhile cs c ?_
  rw [← hrest, List.head?_append]
  rw [trim] at hc
  rw [hc]
  rfl

theorem getLast?_trim (cs : List Char) : ∀ c ∈ (trim cs).getLast?, isBlank c = false := by
  rw [trim, trimRight, List.getLast?_reverse]
  exact head?_dropWhile _

end Text

/-- The text of a comment token, if it is not empty, is one that a comment can have. -/
theorem isCommentText_cleanComment {raw : String} (h : (Token.comment raw).Lexical)
    (hne : cleanComment raw ≠ "") : IsCommentText (cleanComment raw) := by
  -- trimming takes the blanks off both ends, and what is left holds no more than the body does
  have htrim : ∀ body : List Char, cleanComment raw = String.ofList (Text.trim body) →
      ¬ ('\n' ∈ body ∧ ['*', '/'] <:+: body) → IsCommentText (cleanComment raw) := by
    intro body hbody hsafe
    have hchars : (cleanComment raw).toList = Text.trim body := by
      rw [hbody, String.toList_ofList]
    refine ⟨hne, ?_, ?_, ?_⟩
    · rw [hchars]
      exact Text.head?_trim body
    · rw [hchars]
      exact Text.getLast?_trim body
    · rw [hchars]
      intro ⟨hline, hend⟩
      exact hsafe ⟨(Text.trim_infix body).subset hline, hend.trans (Text.trim_infix body)⟩
  rcases h with ⟨cs, hraw, hline⟩ | ⟨cs, hraw, hend⟩
  · refine htrim cs ?_ fun h => hline h.1
    rw [cleanComment, hraw]
    rfl
  · obtain ⟨body, rest, rfl, hlength, hbody⟩ := blockEnd?_eq_some_iff.mp hend
    -- the comment ends at the first end inside it, so nothing stands behind that
    obtain rfl : rest = [] := by
      rw [List.length_append, List.length_cons, List.length_cons] at hlength
      exact List.eq_nil_of_length_eq_zero (by omega)
    refine htrim body ?_ fun h => hbody (h.2.trans (List.prefix_append body ['*']).isInfix)
    have hsuffix : ['*', '/'].isSuffixOf (body ++ ['*', '/']) = true := by
      rw [List.isSuffixOf_iff_suffix]
      exact List.suffix_append _ _
    rw [cleanComment, hraw]
    simp only [Text.dropTail, hsuffix, if_true]
    rw [List.take_left' (by simp)]

/-- The texts of comment tokens are such as comments can have. -/
theorem isCommentText_cleanComments {cs : List Comment}
    (h : ∀ c ∈ cs, (Token.comment c.item).Lexical) :
    ∀ text ∈ cleanComments cs, IsCommentText text := by
  intro text htext
  obtain ⟨hmem, hne⟩ := List.mem_filter.mp htext
  obtain ⟨c, hc, rfl⟩ := List.mem_map.mp hmem
  exact isCommentText_cleanComment (h c hc) (by simpa using hne)

/-- The end of a block comment does not start in front of a text where there is no star. -/
theorem blockEnd_infix_of_append {mark cs : List Char} (hstar : '*' ∉ mark)
    (h : ['*', '/'] <:+: mark ++ cs) : ['*', '/'] <:+: cs := by
  induction mark with
  | nil => exact h
  | cons c mark ih =>
    rw [List.mem_cons, not_or] at hstar
    rw [List.cons_append, List.infix_cons_iff] at h
    rcases h with ⟨tail, htail⟩ | h
    · exact absurd (List.cons.inj htail).1 hstar.1
    · exact ih hstar.2 h

/-- A mark in front of the text of a comment leaves it one that a comment can have. -/
theorem IsCommentText.marked {n text : String} (hn : IsWord n) (h : IsCommentText text) :
    IsCommentText ("@arg=" ++ n ++ ":" ++ text) := by
  have hchars : ("@arg=" ++ n ++ ":" ++ text).toList
      = ('@' :: 'a' :: 'r' :: 'g' :: '=' :: n.toList ++ [':']) ++ text.toList := by
    simp
  have hword : ∀ c ∈ n.toList, c ≠ '\n' ∧ c ≠ '*' := by
    intro c hc
    have h := hn.2 c hc
    constructor <;> rintro rfl <;> cases h
  -- the mark holds no line feed and no star, so that only the text could make it unsafe
  have hmark : '\n' ∉ ('@' :: 'a' :: 'r' :: 'g' :: '=' :: n.toList ++ [':']) ∧
      '*' ∉ ('@' :: 'a' :: 'r' :: 'g' :: '=' :: n.toList ++ [':']) := by
    constructor
    · intro hmem
      have hn : '\n' ∈ n.toList := by simpa using hmem
      exact (hword _ hn).1 rfl
    · intro hmem
      have hn : '*' ∈ n.toList := by simpa using hmem
      exact (hword _ hn).2 rfl
  refine ⟨?_, ?_, ?_, ?_⟩
  · intro hempty
    rw [hempty] at hchars
    cases hchars
  · rw [hchars]
    rintro c ⟨⟩
    decide
  · have hne : text.toList ≠ [] := by
      rw [Ne, String.toList_eq_nil_iff]
      exact h.ne_empty
    rw [hchars, List.getLast?_append_of_ne_nil _ hne]
    exact h.last
  · rw [hchars]
    intro ⟨hline, hend⟩
    refine h.safe ⟨?_, blockEnd_infix_of_append hmark.2 hend⟩
    exact (List.mem_append.mp hline).resolve_left hmark.1

/-! ### Expressions -/

/-- Whether the nodes of an expression can be written, have the operands they take and the types
that these reveal. -/
def Expression.WellFormed (e : Expression) : Prop :=
  ∀ n ∈ e.nodes, n.Spellable ∧ n.HasArity ∧ n.IsTyped

/-- What an expression of a text stands for is well formed. -/
theorem Expression.wellFormed_ofTree {e : Expr} (he : e.Canonical)
    (hlexical : ∀ t ∈ e.tokens, t.Lexical) : (ofTree e).WellFormed := by
  induction he with
  | number n => simp [ofTree, WellFormed, Spellable, HasArity, IsTyped]
  | text s =>
    have hs : '"' ∉ s.toList := hlexical (.text s) List.mem_cons_self
    simpa [ofTree, WellFormed, Spellable, HasArity, IsTyped] using hs
  | name n =>
    have hn : IsWord n := hlexical (.word n) List.mem_cons_self
    simpa [ofTree, WellFormed, Spellable, HasArity, IsTyped] using hn
  | @call f args hargs ih =>
    have hf : IsWord f := hlexical (.word f) List.mem_cons_self
    rw [ofTree, ofTrees_eq_map, WellFormed, forall_nodes_call]
    refine ⟨?_, hf, trivial, trivial⟩
    intro a ha
    obtain ⟨t, ht, rfl⟩ := List.mem_map.mp ha
    refine ih t ht fun u hu => hlexical u ?_
    have hmem := mem_separated .comma (List.mem_map_of_mem (f := Expr.tokens) ht) hu
    rw [Expr.tokens, Expr.tokensOf_eq_map]
    simp [hmem]
  | @paren e he ih =>
    rw [ofTree]
    exact ih fun u hu => hlexical u (by simp [Expr.tokens, hu])
  | @not e hprimary he ih =>
    have h := ih fun u hu => hlexical u (by simp [Expr.tokens, hu])
    rw [ofTree, WellFormed, forall_nodes_operation]
    refine ⟨?_, trivial, rfl, rfl⟩
    rintro a ha
    obtain rfl := List.mem_singleton.mp ha
    exact h
  | @binary o l r ho hl hr hcl hcr ihl ihr =>
    have hleft := ihl fun u hu => hlexical u (by simp [Expr.tokens, hu])
    have hright := ihr fun u hu => hlexical u (by simp [Expr.tokens, hu])
    rw [ofTree, WellFormed, forall_nodes_operation]
    refine ⟨?_, trivial, by simp [HasArity, ho], rfl⟩
    intro a ha
    rcases List.mem_cons.mp ha with rfl | ha
    · exact hleft
    · obtain rfl := List.mem_singleton.mp ha
      exact hright

/-! ### Statements and functions -/

/-- Whether a statement is one that a text can hold. -/
structure Statement.WellFormed (s : Statement) : Prop where
  target : ∀ n ∈ s.kind.target?, IsWord n
  expression : ∀ e ∈ s.kind.expression?, e.WellFormed
  declarable : s.Declarable
  plain : s.IsPlain

/-- Whether a function is one that a text can hold. -/
structure Routine.WellFormed (r : Routine) : Prop where
  name : IsWord r.name
  returnType : r.returnType ≠ .unknown
  params : ∀ p ∈ r.params, IsWord p.name ∧ p.type ≠ .unknown
  statements : ∀ s ∈ r.statements, s.WellFormed
  comments : ∀ text ∈ r.comments, IsCommentText text

/-- Whether a program is one that a text can hold. -/
structure Program.WellFormed (p : Program) : Prop where
  routines : ∀ r ∈ p.routines, r.WellFormed
  headers : ∀ text ∈ p.headers, IsCommentText text

/-- The tokens of a row that the lexer can produce. -/
def LexicalSigns (gs : List Sign) : Prop := ∀ t, .token t ∈ gs → t.Lexical

theorem LexicalSigns.tokens {ts : List Token} (h : LexicalSigns (ts.map .token)) :
    ∀ t ∈ ts, t.Lexical :=
  fun t ht => h t (List.mem_map_of_mem ht)

/-- What a statement of a text does is well formed. -/
theorem Statement.wellFormed_ofTree {s : Stmt} (hs : s.Regular) (hlexical : LexicalSigns s.signs)
    (line : UInt64) : ∀ k ∈ StatementKind.ofTree s, Statement.WellFormed ⟨line, k⟩ := by
  -- the tokens of an expression are signs of its statement, so the lexer can produce them
  have hexpr : ∀ e, s.expression? = some e → (∀ g ∈ e.signs, g ∈ s.signs) →
      (Expression.ofTree e).WellFormed := by
    intro e he hmem
    have htokens : LexicalSigns (e.tokens.map .token) := fun t ht => hlexical t (hmem _ ht)
    exact Expression.wellFormed_ofTree (hs.canonical e he) htokens.tokens
  have hnone : ∀ {α : Type} {P : α → Prop}, ∀ x ∈ (none : Option α), P x := by
    rintro α P x ⟨⟩
  intro k hk
  cases s with
  | dim names type =>
    obtain ⟨n, hn, rfl⟩ := List.mem_map.mp hk
    have hword : IsWord n := by
      refine hlexical (.word n) ?_
      have hmem : Sign.word n ∈ nameSigns names := mem_separated _
        (List.mem_map_of_mem (f := fun n => [Sign.word n]) hn) List.mem_cons_self
      simp only [Stmt.signs, List.mem_append]
      exact .inl (List.mem_cons_of_mem _ hmem)
    refine ⟨?_, hnone, ?_, hnone⟩
    · rintro _ ⟨⟩
      exact hword
    · rintro _ ⟨⟩
      exact (hs.dim names type rfl).2
  | assign n e =>
    obtain rfl := List.mem_singleton.mp hk
    refine ⟨?_, ?_, hnone, hnone⟩
    · rintro _ ⟨⟩
      exact hlexical (.word n) (by simp [Stmt.signs, Sign.word])
    · rintro _ ⟨⟩
      exact hexpr e rfl fun g hg => by simp [Stmt.signs, hg]
  | goto n =>
    obtain rfl := List.mem_singleton.mp hk
    exact ⟨hnone, hnone, hnone, hnone⟩
  | branch c n m =>
    obtain rfl := List.mem_singleton.mp hk
    refine ⟨hnone, ?_, hnone, hnone⟩
    rintro _ ⟨⟩
    exact hexpr c rfl fun g hg => by simp [Stmt.signs, hg]
  | result e =>
    obtain rfl := List.mem_singleton.mp hk
    refine ⟨hnone, ?_, hnone, hnone⟩
    rintro _ ⟨⟩
    exact hexpr e rfl fun g hg => by simp [Stmt.signs, hg]
  | evaluate e =>
    obtain rfl := List.mem_singleton.mp hk
    refine ⟨hnone, ?_, hnone, hnone⟩
    rintro _ ⟨⟩
    exact hexpr e rfl fun g hg => hg

/-- The statements of a line of a text are well formed. -/
theorem Statement.wellFormed_ofLine (keep : Bool) {l : Line}
    (hl : ∀ s ∈ l.statement, s.Regular) (hlexical : LexicalSigns l.signs)
    (hcomments : ∀ c ∈ l.comments, (Token.comment c.item).Lexical) :
    ∀ s ∈ ofLine keep l, s.WellFormed := by
  intro s hs
  obtain ⟨line, kind⟩ := s
  obtain ⟨-, ⟨t, ht, hkind⟩ | ⟨-, -, rfl⟩ | ⟨text, htext, rfl⟩⟩ := ofLine_cases hs
  · refine wellFormed_ofTree (hl t ht) ?_ line kind hkind
    intro u hu
    exact hlexical u (List.mem_cons_of_mem _ (by rw [ht]; exact hu))
  · exact ⟨nofun, nofun, nofun, nofun⟩
  · refine ⟨nofun, nofun, nofun, ?_⟩
    rintro _ ⟨⟩
    exact isCommentText_cleanComments hcomments text htext

/-- A function of a text is well formed. -/
theorem Routine.wellFormed_ofTree (keep : Bool) {r : ParseTree.Routine} (hr : r.Regular)
    (hlexical : LexicalSigns r.signs)
    (hcomments : ∀ c ∈ r.remarks, (Token.comment c.item).Lexical) : (ofTree keep r).WellFormed := by
  have hopen : LexicalSigns r.openSigns := fun t ht => hlexical t (List.mem_append_left _ ht)
  have hparam : ∀ p ∈ r.params, IsWord p.name := by
    intro p hp
    refine hopen (.word p.name) ?_
    have hmem : Sign.word p.name ∈ separated (.token .comma) (r.params.map Param.signs) :=
      mem_separated _ (List.mem_map_of_mem hp) List.mem_cons_self
    simp only [Routine.openSigns, List.mem_append]
    exact .inl (.inl (.inr hmem))
  constructor
  case name => exact hopen (.word r.name) (by simp [Routine.openSigns, Sign.word])
  case returnType => exact hr.returnType
  case params =>
    intro q hq
    obtain ⟨p, hp, rfl⟩ := List.mem_map.mp hq
    exact ⟨hparam p hp, hr.params p hp⟩
  case statements =>
    intro s hs
    obtain ⟨l, hl, hs⟩ := List.mem_flatMap.mp hs
    refine Statement.wellFormed_ofLine keep (hr.lines l hl) ?_ ?_ s hs
    · intro t ht
      exact hopen t (List.mem_append_right _ (List.mem_flatMap.mpr ⟨l, hl, ht⟩))
    · intro c hc
      exact hcomments c (List.mem_append_right _ (List.mem_flatMap.mpr ⟨l, hl, hc⟩))
  case comments =>
    intro text htext
    rcases List.mem_append.mp htext with htext | htext
    · refine isCommentText_cleanComments (fun c hc => hcomments c ?_) text htext
      exact List.mem_append_left _ (List.mem_append_left _ hc)
    · obtain ⟨p, hp, htext⟩ := List.mem_flatMap.mp htext
      obtain ⟨inner, hinner, rfl⟩ := List.mem_map.mp htext
      refine .marked (hparam p hp) (isCommentText_cleanComments (fun c hc => hcomments c ?_) _ hinner)
      exact List.mem_append_left _ (List.mem_append_right _ (List.mem_flatMap.mpr ⟨p, hp, hc⟩))

/-- The program of a tree with such tokens and comments as the lexer produces is well formed. -/
theorem Program.wellFormed_ofTree (keep : Bool) {tree : ParseTree} (ht : tree.Regular)
    (hlexical : LexicalSigns tree.signs)
    (hcomments : ∀ c ∈ tree.remarks, (Token.comment c.item).Lexical) :
    (ofTree keep tree).WellFormed := by
  constructor
  case routines =>
    intro r hr
    obtain ⟨q, hq, rfl⟩ := List.mem_map.mp hr
    refine Routine.wellFormed_ofTree keep (ht q hq) ?_ ?_
    · exact fun t ht => hlexical t (List.mem_flatMap.mpr ⟨q, hq, ht⟩)
    · exact fun c hc => hcomments c (List.mem_append_left _ (List.mem_flatMap.mpr ⟨q, hq, hc⟩))
  case headers =>
    exact isCommentText_cleanComments fun c hc => hcomments c (List.mem_append_right _ hc)

/-! ### Whole texts -/

/-- The tokens and the comments of the tree of a text are such as the lexer produces. -/
theorem lexical_of_parse {source : List Char} {tree : ParseTree} (h : parse source = .ok tree) :
    LexicalSigns tree.signs ∧ ∀ c ∈ tree.remarks, (Token.comment c.item).Lexical := by
  have htokens : ∀ t ∈ (lex source).tokens, t.item.Lexical := lexical_of_mem_lexFrom
  constructor
  · intro t ht
    obtain ⟨-, hsigns⟩ := signs_of_parse h
    have hmem := List.mem_of_mem_filter (Sign.mem_of_fits hsigns ht)
    obtain ⟨u, hu, rfl⟩ := List.mem_map.mp hmem
    exact htokens u hu
  · intro c hc
    obtain ⟨u, hu, hremark⟩ := List.mem_filterMap.mp ((remarks_of_parse h).subset hc)
    have hlexical := htokens u hu
    obtain ⟨offset, item⟩ := u
    cases item with
    | comment raw =>
      cases hremark
      exact hlexical
    | _ => cases hremark

/-- **What a text is evaluated to is well formed.** -/
theorem Program.wellFormed_of_evaluate {options : ParseOptions} {source : String} {p : Program}
    (h : evaluate options source = .ok p) : p.WellFormed := by
  cases htree : ParseTree.ofSource source with
  | error e =>
    rw [evaluate, htree] at h
    cases h
  | ok tree =>
    rw [evaluate, htree] at h
    cases h
    have hparse := ofSource_eq_ok.mp htree
    obtain ⟨hlexical, hcomments⟩ := lexical_of_parse hparse
    exact wellFormed_ofTree _ (signs_of_parse hparse).1 hlexical hcomments

/-! ### The tree that a program is printed as -/

theorem Statement.WellFormed.hasArity {s : Statement} (hs : s.WellFormed) : s.HasArity :=
  fun e he n hn => (hs.expression e he n hn).2.1

theorem Statement.WellFormed.isTyped {s : Statement} (hs : s.WellFormed) : s.IsTyped :=
  fun e he n hn => (hs.expression e he n hn).2.2

theorem Statement.WellFormed.spellable {s : Statement} (hs : s.WellFormed) : s.Spellable :=
  ⟨hs.target, fun e he n hn => (hs.expression e he n hn).1⟩

/-- The tree of a well-formed program stands for what the program is read back as. -/
theorem Program.WellFormed.ofTree_tree {p : Program} (hp : p.WellFormed) (keep : Bool) :
    ofTree keep p.tree = p.readback keep :=
  Program.ofTree_tree keep fun r hr s hs =>
    ⟨((hp.routines r hr).statements s hs).hasArity, ((hp.routines r hr).statements s hs).isTyped⟩

/-- A well-formed program is read back as it is exactly if the statements of its functions are. -/
theorem Program.WellFormed.readback_eq_self_iff {p : Program} (hp : p.WellFormed) {keep : Bool} :
    p.readback keep = p ↔ ∀ r ∈ p.routines,
      Item.readbackAll keep (Item.ofStatements r.statements) = r.statements := by
  have hheaders : cleanComments (p.headers.map fun text => ⟨0, writtenComment text false⟩)
      = p.headers := cleanComments_written hp.headers false
  have hroutine : ∀ r ∈ p.routines, r.readback keep = r ↔
      Item.readbackAll keep (Item.ofStatements r.statements) = r.statements := by
    intro r hr
    have hcomments := cleanComments_written (hp.routines r hr).comments false
    rw [Routine.readback, hcomments]
    exact ⟨congrArg Routine.statements, fun h => by rw [h]⟩
  obtain ⟨headers, routines⟩ := p
  have hroutines : routines.map (Routine.readback keep) = routines ↔
      ∀ r ∈ routines, r.readback keep = r := by
    conv_lhs => rhs; rw [← List.map_id routines]
    exact List.map_inj_left
  rw [readback, hheaders, mk.injEq, and_iff_right rfl, hroutines]
  exact forall₂_congr hroutine

/-- A well-formed program without empty lines is read back as it is. -/
theorem Program.WellFormed.readback_eq_self {p : Program} (hp : p.WellFormed) (keep : Bool)
    (hnoOp : ∀ r ∈ p.routines, ∀ s ∈ r.statements, s.kind ≠ .noOp) : p.readback keep = p := by
  rw [hp.readback_eq_self_iff]
  intro r hr
  rw [Item.readbackAll_eq_self keep, Item.flatMap_statements]
  · exact fun i hi s hs =>
      ((hp.routines r hr).statements s (Item.mem_of_mem_statements hi hs)).plain
  · exact fun i hi s hs => hnoOp r hr s (Item.mem_of_mem_statements hi hs)

/-- The tree of a well-formed program is regular but for the first tokens of bare expressions. -/
theorem Program.WellFormed.shaped_tree {p : Program} (hp : p.WellFormed) :
    ∀ r ∈ p.tree.routines, r.Shaped := by
  intro t ht
  obtain ⟨r, hr, rfl⟩ := List.mem_map.mp ht
  have hwell := hp.routines r hr
  exact Routine.shaped_tree hwell.returnType (fun q hq => (hwell.params q hq).2)
    fun s hs => ⟨(hwell.statements s hs).hasArity, (hwell.statements s hs).declarable⟩

end ContractBasic
