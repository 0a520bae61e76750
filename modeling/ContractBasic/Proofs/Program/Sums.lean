/-
Chains of sums.

The type of a sum is decided between its two operands, each of which may be a sum itself.  Taken
together, these decisions are one: the last operand of the whole chain that reveals a type has the say,
however the chain is grouped.

* `Expression.summands` — the operands of a chain of sums, without its groups
* `Expression.hint_ofTree` — a chain reveals what the last of its operands that reveals anything does
* `Expression.type_ofTree_sum` — the type of a chain
-/
import ContractBasic.Proofs.Evaluated

namespace ContractBasic

namespace Expression

/-! ### Chains -/

mutual

/-- The operands of a chain of sums, left to right: the largest parts that are no sums and that are
reached through sums alone.  What is no sum is its own one operand. -/
def summands : Expression → List Expression
  | .operation (.arithmetic .add) operands _ => summandsOf operands
  | e => [e]

/-- The operands of several chains. -/
def summandsOf : List Expression → List Expression
  | [] => []
  | e :: es => summands e ++ summandsOf es

end

/-- What the last of some operands that reveals anything reveals. -/
def lastHint (es : List Expression) : Option ValueType := (es.filterMap hint).getLast?

theorem summands_sum (l r : Expression) (type : ValueType) :
    (operation (.arithmetic .add) [l, r] type).summands = l.summands ++ r.summands := by
  rw [summands, summandsOf, summandsOf, summandsOf, List.append_nil]

@[simp] theorem lastHint_singleton (e : Expression) : lastHint [e] = e.hint := by
  unfold lastHint
  cases he : e.hint <;> simp [he]

/-- Of two rows of operands, the right one has the say. -/
theorem lastHint_append (es fs : List Expression) :
    lastHint (es ++ fs) = (lastHint fs).or (lastHint es) := by
  rw [lastHint, List.filterMap_append, List.getLast?_append]
  rfl

/-! ### Types -/

/-- A sum reveals what its right operand reveals, or else its left one. -/
theorem hint_sum (l r : Expression) :
    (operation (.arithmetic .add) [l, r]
      (Operator.resultType (.arithmetic .add) l.hint r.hint)).hint = r.hint.or l.hint := by
  show (operation _ _ ((r.hint.or l.hint).getD .unknown)).hint = _
  -- operands reveal types, so the sum is of unknown type only if they reveal nothing
  have hknown : r.hint.or l.hint ≠ some .unknown := by
    intro h
    rcases Option.or_eq_some_iff.mp h with h | ⟨-, h⟩
    · exact r.hint_ne_unknown h
    · exact l.hint_ne_unknown h
  cases hor : r.hint.or l.hint with
  | none => rfl
  | some type =>
    cases type with
    | uint64 | string => rfl
    | unknown => exact absurd hor hknown

/-- **A chain of sums reveals what the last of its operands that reveals anything reveals.** -/
theorem hint_ofTree : (e : ParseTree.Expr) → (ofTree e).hint = lastHint (ofTree e).summands
  | .number _ | .text _ | .name _ | .call _ _ | .not _ => by simp [ofTree, summands]
  | .paren e => by
    rw [ofTree]
    exact hint_ofTree e
  | .binary o l r => by
    rw [ofTree]
    by_cases ho : o = .arithmetic .add
    · rw [ho, hint_sum, summands_sum, lastHint_append, hint_ofTree l, hint_ofTree r]
    · rw [summands, lastHint_singleton]
      rintro operands type ⟨⟩
      exact ho rfl

/-- The type of a sum is what the sum reveals, if it reveals anything. -/
theorem type_eq_hint (operands : List Expression) (type : ValueType) :
    type = (operation (.arithmetic .add) operands type).hint.getD .unknown := by
  cases type <;> rfl

/-- **The type of a chain of sums** is what the last of its operands that reveals anything reveals, and
unknown if none does; so it is the same for all chains of these operands, however they are grouped. -/
theorem type_ofTree_sum {e : ParseTree.Expr} {operands : List Expression} {type : ValueType}
    (h : ofTree e = .operation (.arithmetic .add) operands type) :
    type = (lastHint (ofTree e).summands).getD .unknown ∧
    ∀ e' operands' type', ofTree e' = .operation (.arithmetic .add) operands' type' →
      (ofTree e').summands = (ofTree e).summands → type' = type := by
  have htype : ∀ {e : ParseTree.Expr} {operands : List Expression} {type : ValueType},
      ofTree e = .operation (.arithmetic .add) operands type →
      type = (lastHint (ofTree e).summands).getD .unknown := by
    intro e operands type h
    rw [← hint_ofTree, h]
    exact type_eq_hint operands type
  refine ⟨htype h, fun e' operands' type' h' hsame => ?_⟩
  rw [htype h', htype h, hsame]

/-- `a + "t" + (g(1) + (("x" == b) + (c + d)))`: the last operand that reveals anything is a comparison of
texts, which is a number, and a sum that reveals nothing follows. -/
def groupedSum : ParseTree.Expr :=
  .binary (.arithmetic .add)
    (.binary (.arithmetic .add) (.name "a") (.text "t"))
    (.paren (.binary (.arithmetic .add) (.call "g" [.number 1])
      (.paren (.binary (.arithmetic .add)
        (.paren (.binary (.comparison .eq) (.text "x") (.name "b")))
        (.paren (.binary (.arithmetic .add) (.name "c") (.name "d")))))))

theorem type_ofTree_sum_groupedSum :
    ofTree groupedSum = .operation (.arithmetic .add)
      [.operation (.arithmetic .add) [.name "a", .value (.string "t")] .string,
        .operation (.arithmetic .add) [.call "g" [.value (.uint64 1)],
          .operation (.arithmetic .add)
            [.operation (.comparison .eq) [.value (.string "x"), .name "b"] .string,
              .operation (.arithmetic .add) [.name "c", .name "d"] .unknown] .uint64] .uint64]
      .uint64 ∧
    .uint64 = (lastHint (ofTree groupedSum).summands).getD .unknown ∧
    ∀ e' operands' type', ofTree e' = .operation (.arithmetic .add) operands' type' →
      (ofTree e').summands = (ofTree groupedSum).summands → type' = .uint64 :=
  ⟨rfl, type_ofTree_sum rfl⟩

end Expression

end ContractBasic
