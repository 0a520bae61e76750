/-
Readings of expressions.

A reading stands for the tokens read so far, just as an expression does for those of a text, and one
more token adds just that token.  Whatever a reading holds has the shape that the layers of
operators prescribe, since each operand is joined to its chain at the right place.

* `ExprReading.step_tokens` — one more token is what has been read behind what was read before
* `ExprReading.Canonical` — what a reading holds has canonical shape, and a step keeps it so
-/
import ContractBasic.Proofs.Grammar.Written

namespace ContractBasic

open ParseTree

/-! ### Joining a chain -/

namespace ParseTree.Expr

theorem tokens_join (e : Expr) (o : Operator) (r : Expr) :
    (e.join o r).tokens = e.tokens ++ .operator o :: r.tokens := by
  fun_induction join e o r with
  | case1 p a b h ih => simp [tokens, ih]
  | case2 p a b h => simp [tokens]
  | case3 e h => simp [tokens]

theorem lt_layer_join {n : Nat} {e r : Expr} {o : Operator} (he : n < e.layer) (ho : n < o.layer) :
    n < (e.join o r).layer := by
  unfold join
  split
  · split
    · exact he
    · exact ho
  · exact ho

/-- Joining an operand to a chain of canonical shape keeps the shape. -/
theorem Canonical.join {e r : Expr} {o : Operator} (he : e.Canonical) (hr : r.Canonical)
    (ho : o.isUnary = false) (hl : r.layer = 8) : (e.join o r).Canonical := by
  -- the operand is a primary, so that every operator is looser than it
  have hor : o.layer < r.layer := by
    rw [hl]
    exact o.layer_lt ho
  fun_induction Expr.join e o r with
  | case1 p a b h ih =>
    -- the chain ends in a looser operator, so the operand goes to its right side
    rcases he with _ | _ | _ | _ | _ | _ | ⟨hp, hpa, hpb, ha, hb⟩
    exact .binary hp hpa (lt_layer_join hpb h) ha (ih hb)
  | case2 p a b h => exact .binary ho (Nat.le_of_not_lt h) hor he hr
  | case3 e h =>
    refine .binary ho ?_ hor he hr
    have hlt := o.layer_lt ho
    cases e with
    | binary p a b => exact absurd rfl (h p a b)
    | _ => exact Nat.le_of_lt hlt

end ParseTree.Expr

namespace Grammar

/-! ### Expressions -/

/-- What has been read of a chain before an operand. -/
def Slot.tokens (s : Slot) : List Token :=
  (match s.left with
    | none => []
    | some (e, o) => e.tokens ++ [.operator o]) ++
  if s.negated then [.operator (.bitwise .not)] else []

/-- What has been read from the start of an enclosure to the start of what is inside it. -/
def Enclosure.tokens : Enclosure → List Token
  | paren slot => slot.tokens ++ [.lparen]
  | call slot f args => slot.tokens ++ .word f :: .lparen :: args.flatMap fun a => a.tokens ++ [.comma]

/-- What has been read inside the innermost enclosure. -/
def Spot.tokens : Spot → List Token
  | operand slot => slot.tokens
  | named slot n => slot.tokens ++ [.word n]
  | called slot f => slot.tokens ++ [.word f, .lparen]
  | chain e => e.tokens

/-- What has been read of an expression. -/
def ExprReading.tokens (r : ExprReading) : List Token :=
  r.enclosures.reverse.flatMap Enclosure.tokens ++ r.spot.tokens

theorem Slot.tokens_fill (s : Slot) (p : Expr) : (s.fill p).tokens = s.tokens ++ p.tokens := by
  obtain ⟨left, negated⟩ := s
  rcases left with _ | ⟨e, o⟩ <;> cases negated <;>
    simp [fill, Slot.tokens, Expr.tokens_join, Expr.tokens]

namespace ExprReading

theorem stepOperand_tokens {es : List Enclosure} {slot : Slot} {t : Token} {r : ExprReading}
    (h : stepOperand es slot t = some r) :
    r.tokens = es.reverse.flatMap Enclosure.tokens ++ slot.tokens ++ [t] := by
  unfold stepOperand at h
  split at h
  · cases h
    simp [tokens, Spot.tokens, Slot.tokens_fill, Expr.tokens]
  · cases h
    simp [tokens, Spot.tokens, Slot.tokens_fill, Expr.tokens]
  · cases h
    simp [tokens, Spot.tokens]
  · cases h
    simp [tokens, Spot.tokens, Enclosure.tokens, Slot.first, Slot.tokens]
  · split at h
    · cases h
    · rename_i hn
      cases h
      simp [tokens, Spot.tokens, Slot.tokens, hn]
  · cases h

theorem stepChain_tokens {es : List Enclosure} {e : Expr} {t : Token} {r : ExprReading}
    (h : stepChain es e t = some r) :
    r.tokens = es.reverse.flatMap Enclosure.tokens ++ e.tokens ++ [t] := by
  unfold stepChain at h
  split at h
  · split at h
    · cases h
    · cases h
      simp [tokens, Spot.tokens, Slot.after, Slot.tokens]
  · cases h
    simp [tokens, Spot.tokens, Slot.tokens_fill, Expr.tokens, Enclosure.tokens]
  · cases h
    simp [tokens, Spot.tokens, Slot.tokens_fill, Expr.tokens, Enclosure.tokens, List.flatMap_map,
      Expr.tokensOf_eq_map, separated_concat]
  · cases h
    simp [tokens, Spot.tokens, Slot.first, Slot.tokens, Enclosure.tokens]
  · cases h

/-- One more token of an expression is what has been read behind what was read before. -/
theorem step_tokens {r r' : ExprReading} {t : Token} (h : r.step t = some r') :
    r'.tokens = r.tokens ++ [t] := by
  obtain ⟨es, spot⟩ := r
  cases spot with
  | operand slot => exact stepOperand_tokens h
  | chain e => exact stepChain_tokens h
  | named slot n =>
    simp only [step] at h
    split at h
    · rename_i ht
      cases h
      simp [tokens, Spot.tokens, ht]
    · rw [stepChain_tokens h, Slot.tokens_fill]
      rfl
  | called slot f =>
    simp only [step] at h
    split at h
    · rename_i ht
      cases h
      simp [tokens, Spot.tokens, ht, Slot.tokens_fill, Expr.tokens, Expr.tokensOf]
    · rw [stepOperand_tokens h]
      simp [tokens, Spot.tokens, Enclosure.tokens, Slot.first, Slot.tokens]

theorem value?_tokens {r : ExprReading} {e : Expr} (h : r.value? = some e) :
    e.tokens = r.tokens := by
  obtain ⟨es, spot⟩ := r
  unfold value? at h
  split at h
  · rename_i he hs
    cases h
    simp only at he hs
    subst he hs
    rfl
  · rename_i he hs
    cases h
    simp only at he hs
    subst he hs
    simp [tokens, Spot.tokens, Slot.tokens_fill, Expr.tokens]
  · cases h

end ExprReading

/-- What a place before an operand holds has canonical shape. -/
def Slot.Canonical (s : Slot) : Prop :=
  ∀ e o, s.left = some (e, o) → e.Canonical ∧ o.isUnary = false

/-- What an enclosure holds has canonical shape. -/
def Enclosure.Canonical : Enclosure → Prop
  | paren slot => slot.Canonical
  | call slot _ args => slot.Canonical ∧ ∀ a ∈ args, a.Canonical

/-- What a spot holds has canonical shape. -/
def Spot.Canonical : Spot → Prop
  | operand slot | named slot _ | called slot _ => slot.Canonical
  | chain e => e.Canonical

/-- What a reading holds has canonical shape. -/
structure ExprReading.Canonical (r : ExprReading) : Prop where
  enclosures : ∀ e ∈ r.enclosures, e.Canonical
  spot : r.spot.Canonical

theorem Slot.canonical_first : Slot.first.Canonical := by
  intro e o h
  cases h

theorem Slot.Canonical.fill {s : Slot} (hs : s.Canonical) {p : Expr} (hp : p.isPrimary = true)
    (hc : p.Canonical) : (s.fill p).Canonical := by
  obtain ⟨left, negated⟩ := s
  -- the operand is the primary or its negation; either way it binds tighter than any chain
  have hop : ∃ x : Expr, (if negated then .not p else p) = x ∧ x.Canonical ∧ x.layer = 8 := by
    cases negated with
    | true => exact ⟨_, rfl, .not hp hc, rfl⟩
    | false =>
      refine ⟨_, rfl, hc, ?_⟩
      cases p <;> first | rfl | cases hp
  obtain ⟨x, hx, hxc, hxl⟩ := hop
  unfold Slot.fill
  simp only [hx]
  rcases left with _ | ⟨e, o⟩
  · exact hxc
  · obtain ⟨he, ho⟩ := hs e o rfl
    exact he.join hxc ho hxl

namespace ExprReading

theorem canonical_start : start.Canonical :=
  ⟨fun _ h => absurd h List.not_mem_nil, Slot.canonical_first⟩

theorem stepOperand_canonical {es : List Enclosure} {slot : Slot} {t : Token} {r : ExprReading}
    (h : stepOperand es slot t = some r) (he : ∀ e ∈ es, e.Canonical) (hs : slot.Canonical) :
    r.Canonical := by
  unfold stepOperand at h
  split at h
  · cases h
    exact ⟨he, hs.fill rfl (.number _)⟩
  · cases h
    exact ⟨he, hs.fill rfl (.text _)⟩
  · cases h
    exact ⟨he, hs⟩
  · cases h
    exact ⟨List.forall_mem_cons.mpr ⟨hs, he⟩, Slot.canonical_first⟩
  · split at h
    · cases h
    · cases h
      exact ⟨he, hs⟩
  · cases h

theorem stepChain_canonical {es : List Enclosure} {e : Expr} {t : Token} {r : ExprReading}
    (h : stepChain es e t = some r) (hes : ∀ e ∈ es, e.Canonical) (he : e.Canonical) :
    r.Canonical := by
  unfold stepChain at h
  split at h
  · split at h
    · cases h
    · rename_i ho
      cases h
      refine ⟨hes, ?_⟩
      intro e' o' heq
      cases heq
      exact ⟨he, by simpa using ho⟩
  · cases h
    obtain ⟨hslot, hrest⟩ := List.forall_mem_cons.mp hes
    exact ⟨hrest, hslot.fill rfl (.paren he)⟩
  · cases h
    obtain ⟨⟨hslot, hargs⟩, hrest⟩ := List.forall_mem_cons.mp hes
    refine ⟨hrest, hslot.fill rfl (.call _ ?_)⟩
    simpa [or_imp, forall_and] using ⟨hargs, he⟩
  · cases h
    obtain ⟨⟨hslot, hargs⟩, hrest⟩ := List.forall_mem_cons.mp hes
    refine ⟨List.forall_mem_cons.mpr ⟨⟨hslot, ?_⟩, hrest⟩, Slot.canonical_first⟩
    simpa [or_imp, forall_and] using ⟨hargs, he⟩
  · cases h

/-- A step keeps the shape of what has been read. -/
theorem Canonical.step {r r' : ExprReading} {t : Token} (hr : r.Canonical)
    (h : r.step t = some r') : r'.Canonical := by
  obtain ⟨es, spot⟩ := r
  obtain ⟨hes, hspot⟩ := hr
  cases spot with
  | operand slot => exact stepOperand_canonical h hes hspot
  | chain e => exact stepChain_canonical h hes hspot
  | named slot n =>
    simp only [ExprReading.step] at h
    split at h
    · cases h
      exact ⟨hes, hspot⟩
    · exact stepChain_canonical h hes (Slot.Canonical.fill hspot rfl (.name n))
  | called slot f =>
    simp only [ExprReading.step] at h
    split at h
    · cases h
      refine ⟨hes, Slot.Canonical.fill hspot rfl (.call f ?_)⟩
      exact fun _ ha => absurd ha List.not_mem_nil
    · refine stepOperand_canonical h (List.forall_mem_cons.mpr ⟨⟨hspot, ?_⟩, hes⟩)
        Slot.canonical_first
      exact fun _ ha => absurd ha List.not_mem_nil

theorem Canonical.value? {r : ExprReading} {e : Expr} (hr : r.Canonical)
    (h : r.value? = some e) : e.Canonical := by
  obtain ⟨es, spot⟩ := r
  unfold ExprReading.value? at h
  split at h
  · rename_i hs
    cases h
    simp only at hs
    subst hs
    exact hr.spot
  · rename_i hs
    cases h
    simp only at hs
    subst hs
    exact Slot.Canonical.fill hr.spot rfl (.name _)
  · cases h

end ExprReading

/-! ### Reading what is written -/

/-- The chain at a spot, if the spot is behind an operand. -/
def Spot.chain? : Spot → Option Expr
  | chain e => some e
  | named slot n => some (slot.fill (.name n))
  | _ => none

/-- Whether an expression can stand in the place of an operand: behind `!` a primary, and behind an
operator what binds tighter. -/
structure Slot.Takes (s : Slot) (e : Expr) : Prop where
  negated : s.negated = true → e.isPrimary = true
  left : ∀ l o, s.left = some (l, o) → o.layer < e.layer

theorem Slot.takes_first (e : Expr) : Slot.first.Takes e := ⟨nofun, nofun⟩

/-- What stands behind `!` is a primary, so no other expression stands there. -/
theorem Slot.Takes.negated_eq_false {s : Slot} {e : Expr} (h : s.Takes e)
    (he : e.isPrimary = false) : s.negated = false := by
  rw [Bool.eq_false_iff]
  intro hneg
  rw [h.negated hneg] at he
  cases he

theorem Slot.fill_first (e : Expr) : Slot.first.fill e = e := rfl

end Grammar

namespace ParseTree.Expr

theorem join_eq_binary {a b : Expr} {o : Operator} (h : o.layer ≤ a.layer) :
    a.join o b = .binary o a b := by
  cases a with
  | binary p x y => exact if_neg (Nat.not_lt.mpr h)
  | _ => rfl

/-- The operand at the end of a chain grows under a tighter operator as if it stood alone. -/
theorem join_join (l : Expr) {q o : Operator} {a b : Expr} (hq : q.layer < o.layer)
    (ha : o.layer ≤ a.layer) : (l.join q a).join o b = l.join q (.binary o a b) := by
  have hjoin : a.join o b = .binary o a b := join_eq_binary ha
  fun_induction join l q a with
  | case1 p x y hp ih => simp [join, hp, Nat.lt_trans hp hq, ih]
  | case2 p x y hp => simp [join, hp, hq, hjoin]
  | case3 e he => simp [join, hq, hjoin]

theorem tokens_eq_cons : ∀ e : Expr, ∃ t ts, e.tokens = t :: ts ∧ t ≠ .rparen
  | .number _ => ⟨_, _, rfl, nofun⟩
  | .text _ => ⟨_, _, rfl, nofun⟩
  | .name _ => ⟨_, _, rfl, nofun⟩
  | .call _ _ => ⟨_, _, rfl, nofun⟩
  | .paren _ => ⟨_, _, rfl, nofun⟩
  | .not _ => ⟨_, _, rfl, nofun⟩
  | .binary o l r => by
    obtain ⟨t, ts, h, ht⟩ := tokens_eq_cons l
    exact ⟨t, ts ++ .operator o :: r.tokens, by rw [tokens, h]; rfl, ht⟩

end ParseTree.Expr

namespace Grammar

namespace ExprReading

theorem step_of_chain? {es : List Enclosure} {spot : Spot} {e : Expr} {t : Token}
    (h : spot.chain? = some e) (ht : t ≠ .lparen) : step ⟨es, spot⟩ t = stepChain es e t := by
  cases spot with
  | chain e' =>
    cases h
    rfl
  | named slot n =>
    cases h
    exact if_neg ht
  | _ => cases h

theorem value?_of_chain? {spot : Spot} {e : Expr} (h : spot.chain? = some e) :
    value? ⟨[], spot⟩ = some e := by
  cases spot with
  | chain e' => exact h
  | named slot n => exact h
  | _ => cases h

theorem step_called {es : List Enclosure} {slot : Slot} {f : String} {t : Token}
    (ht : t ≠ .rparen) :
    step ⟨es, .called slot f⟩ t = step ⟨.call slot f [] :: es, .operand .first⟩ t :=
  if_neg ht

/-- The arguments of a call are read one by one; each is read as it would be alone. -/
theorem foldlM_args (es : List Enclosure) (slot : Slot) (f : String) {args : List Expr}
    (hread : ∀ a ∈ args, ∀ es, ∃ spot,
      a.tokens.foldlM step ⟨es, .operand .first⟩ = some ⟨es, spot⟩ ∧ spot.chain? = some a)
    (before : List Expr) (hne : args ≠ []) :
    (separated Token.comma (args.map Expr.tokens) ++ [Token.rparen]).foldlM step
        ⟨.call slot f before :: es, .operand .first⟩
      = some ⟨es, .chain (slot.fill (.call f (before ++ args)))⟩ := by
  -- the arguments that have been read stand in the enclosure, and pile up there
  induction args generalizing before with
  | nil => exact absurd rfl hne
  | cons a rest ih =>
    obtain ⟨spot, hfold, hspot⟩ := hread a List.mem_cons_self (.call slot f before :: es)
    rcases rest with _ | ⟨b, rest⟩
    · simp [hfold, step_of_chain? hspot, stepChain]
    · have hrest := ih (fun a ha => hread a (List.mem_cons_of_mem _ ha)) (before ++ [a]) nofun
      rw [List.map_cons, List.map_cons, separated_cons_cons, List.append_assoc,
        List.foldlM_append, hfold]
      simpa [step_of_chain? hspot, stepChain] using hrest

/-- An expression of canonical shape is read as it is written, in every place that takes it. -/
theorem foldlM_tokens {e : Expr} (he : e.Canonical) : ∀ (es : List Enclosure) (slot : Slot),
    slot.Takes e → ∃ spot, e.tokens.foldlM step ⟨es, .operand slot⟩ = some ⟨es, spot⟩ ∧
      spot.chain? = some (slot.fill e) := by
  -- by induction on the shape; enclosures and slot vary, since operands and arguments are read at
  -- other places than the whole
  induction he with
  | number n => exact fun es slot _ => ⟨.chain (slot.fill (.number n)), rfl, rfl⟩
  | text s => exact fun es slot _ => ⟨.chain (slot.fill (.text s)), rfl, rfl⟩
  | name n => exact fun es slot _ => ⟨.named slot n, rfl, rfl⟩
  | @call f args _ ih =>
    intro es slot _
    refine ⟨.chain (slot.fill (.call f args)), ?_, rfl⟩
    rcases args with _ | ⟨a, rest⟩
    · rfl
    · obtain ⟨t, ts, ht, hne⟩ := Expr.tokens_eq_cons a
      have hread : ∀ b ∈ a :: rest, ∀ es, ∃ spot,
          b.tokens.foldlM step ⟨es, .operand .first⟩ = some ⟨es, spot⟩ ∧ spot.chain? = some b :=
        fun b hb es => ih b hb es .first (Slot.takes_first b)
      have hargs := foldlM_args es slot f hread [] nofun
      -- the first argument is begun at the parenthesis itself, not at an operand's place
      obtain ⟨row, hrow⟩ : ∃ row,
          separated Token.comma ((a :: rest).map Expr.tokens) ++ [Token.rparen] = t :: row := by
        rcases rest with _ | ⟨b, rest⟩
        · exact ⟨ts ++ [Token.rparen], by simp [ht]⟩
        · exact ⟨_, by rw [List.map_cons, List.map_cons, separated_cons_cons, ht]; rfl⟩
      have hname : step ⟨es, .operand slot⟩ (.word f) = some ⟨es, .named slot f⟩ := rfl
      have hopen : step ⟨es, .named slot f⟩ .lparen = some ⟨es, .called slot f⟩ := rfl
      rw [hrow, List.foldlM_cons] at hargs
      rw [Expr.tokens, Expr.tokensOf_eq_map, List.cons_append, List.cons_append, hrow]
      simpa [hname, hopen, step_called hne] using hargs
  | @paren e _ ih =>
    intro es slot _
    obtain ⟨spot, hfold, hspot⟩ := ih (.paren slot :: es) .first (Slot.takes_first e)
    refine ⟨.chain (slot.fill (.paren e)), ?_, rfl⟩
    have hopen : step ⟨es, .operand slot⟩ .lparen = some ⟨.paren slot :: es, .operand .first⟩ := rfl
    simp [Expr.tokens, hopen, hfold, step_of_chain? hspot, stepChain, Slot.fill_first]
  | @not e hp _ ih =>
    intro es slot htakes
    -- no `!` stands before this one, and behind it the slot takes only primaries
    obtain ⟨left, negated⟩ := slot
    obtain rfl : negated = false := htakes.negated_eq_false rfl
    have hslot : Slot.Takes ⟨left, true⟩ e := by
      refine ⟨fun _ => hp, fun l o hl => ?_⟩
      have hlt := htakes.left l o hl
      cases e <;> first | exact hlt | cases hp
    obtain ⟨spot, hfold, hspot⟩ := ih es ⟨left, true⟩ hslot
    exact ⟨spot, hfold, hspot⟩
  | @binary o l r ho hl hr _ _ ihl ihr =>
    intro es slot htakes
    obtain ⟨left, negated⟩ := slot
    obtain rfl : negated = false := htakes.negated_eq_false rfl
    -- an operator that waits on the left binds looser than this one, hence than its left operand
    have hleft : ∀ x q, left = some (x, q) → q.layer < o.layer := htakes.left
    obtain ⟨spot, hfold, hspot⟩ := ihl es ⟨left, false⟩
      ⟨nofun, fun x q hx => Nat.lt_of_lt_of_le (hleft x q hx) hl⟩
    have hafter : (Slot.after (Slot.fill ⟨left, false⟩ l) o).Takes r := by
      refine ⟨nofun, ?_⟩
      rintro x q ⟨⟩
      exact hr
    obtain ⟨spot', hfold', hspot'⟩ := ihr es _ hafter
    refine ⟨spot', ?_, ?_⟩
    · simp [Expr.tokens, hfold, step_of_chain? hspot, stepChain, ho, hfold']
    · -- the waiting operator takes the whole chain, not its left operand alone
      rw [hspot']
      rcases left with _ | ⟨x, q⟩
      · exact congrArg some (Expr.join_eq_binary hl)
      · exact congrArg some (x.join_join (hleft x q rfl) hl)

end ExprReading

end Grammar

end ContractBasic
