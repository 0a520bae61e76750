/-
Names from a supply.

Distinct numbers give distinct short names, so among one number more than there are blocked names
one gives a free name, and the search for it ends there.  What a supply has given out it blocks from
then on.

* `exists_not_blocked`, `firstFree_not_blocked` — among enough numbers one gives a free name, and the
  search finds one
* `Supply.next_not_blocked`, `Supply.next_taken` — a fresh name, and what is taken after it
* `isWord_shortName`, `toLower_shortName`, `toLower_upcase_shortName` — short names are words and have
  no capitals
-/
import ContractBasic.Proofs.Token.Scan
import ContractBasic.Rename.Supply
import ContractBasic.Text.Upcase
import Mathlib.Data.List.Nodup
import Mathlib.Data.List.Perm.Subperm

namespace ContractBasic

open Text (digit numeral numeral_injective forall_mem_numeral upcase upcaseChar)

/-! ### Short names -/

theorem shortName_injective {kind : SymbolKind} {m n : Nat}
    (h : shortName kind m = shortName kind n) : m = n := by
  have hchars : kind.letter :: numeral 36 m = kind.letter :: numeral 36 n :=
    String.ofList_injective h
  exact numeral_injective (by omega) (by omega) (List.cons.inj hchars).2

/-- What holds of the three letters and of the digits holds of the characters of short names. -/
theorem forall_mem_shortName {P : Char → Prop} (hletter : ∀ kind : SymbolKind, P kind.letter)
    (hdigit : ∀ n < 36, P (digit n)) (kind : SymbolKind) (n : Nat) :
    ∀ c ∈ (shortName kind n).toList, P c := by
  intro c hc
  rw [shortName, String.toList_ofList] at hc
  rcases List.mem_cons.mp hc with rfl | hc
  · exact hletter kind
  · exact forall_mem_numeral (by omega) hdigit n c hc

theorem toLower_shortName (kind : SymbolKind) (n : Nat) :
    (shortName kind n).toLower = shortName kind n := by
  have hchar : ∀ c ∈ (shortName kind n).toList, c.toLower = c :=
    forall_mem_shortName (by rintro ⟨⟩ <;> rfl) (by decide +kernel) kind n
  apply String.toList_injective
  show ((shortName kind n).map Char.toLower).toList = _
  rw [String.toList_map, List.map_congr_left hchar, List.map_id']

theorem isWord_shortName (kind : SymbolKind) (n : Nat) : IsWord (shortName kind n) := by
  constructor
  · rw [shortName, String.toList_ofList, List.head?_cons]
    cases kind <;> rfl
  · exact forall_mem_shortName (by rintro ⟨⟩ <;> rfl) (by decide +kernel) kind n

/-- A short name in capitals is the short name again in small letters. -/
theorem toLower_upcase_shortName (kind : SymbolKind) (n : Nat) :
    (upcase (shortName kind n)).toLower = shortName kind n := by
  have hchar : ∀ c ∈ (shortName kind n).toList,
      upcaseChar c = [c.toUpper] ∧ c.toUpper.toLower = c :=
    forall_mem_shortName (by rintro ⟨⟩ <;> decide) (by decide +kernel) kind n
  have hup : (shortName kind n).toList.flatMap upcaseChar
      = (shortName kind n).toList.map Char.toUpper := by
    rw [List.map_eq_flatMap]
    exact List.flatMap_congr fun c hc => (hchar c hc).1
  apply String.toList_injective
  show ((upcase (shortName kind n)).map Char.toLower).toList = _
  rw [String.toList_map, upcase, String.toList_ofList, hup, List.map_map]
  exact (List.map_congr_left fun c hc => (hchar c hc).2).trans (List.map_id' _)

/-! ### The search for a free name -/

theorem firstFree_cases (blocked : List String) (kind : SymbolKind) (fuel n : Nat) :
    shortName kind (firstFree blocked kind fuel n) ∉ blocked ∨
      ∀ i < fuel, shortName kind (n + i) ∈ blocked := by
  induction fuel generalizing n with
  | zero => exact .inr fun i hi => absurd hi (by omega)
  | succ fuel ih =>
    rw [firstFree]
    by_cases hn : shortName kind n ∈ blocked
    · rw [if_pos hn]
      -- the number at hand is blocked, and so are those that the rest of the fuel passes
      refine (ih (n + 1)).imp_right fun hall i hi => ?_
      cases i with
      | zero => exact hn
      | succ i =>
        have h := hall i (by omega)
        rwa [show n + (i + 1) = n + 1 + i by omega]
    · rw [if_neg hn]
      exact .inl hn

/-- Among one number more than there are blocked names, one gives a free name. -/
theorem exists_not_blocked (blocked : List String) (kind : SymbolKind) (n : Nat) :
    ∃ i < blocked.length + 1, shortName kind (n + i) ∉ blocked := by
  by_contra hnone
  push Not at hnone
  -- as many distinct blocked names as there are numbers
  have hnodup : ((List.range (blocked.length + 1)).map fun i => shortName kind (n + i)).Nodup := by
    refine List.Nodup.map (fun i j hij => ?_) List.nodup_range
    have := shortName_injective hij
    omega
  have hsubset : ((List.range (blocked.length + 1)).map fun i => shortName kind (n + i))
      ⊆ blocked := by
    intro x hx
    obtain ⟨i, hi, rfl⟩ := List.mem_map.mp hx
    exact hnone i (List.mem_range.mp hi)
  have hlength := (List.Nodup.subperm hnodup hsubset).length_le
  rw [List.length_map, List.length_range] at hlength
  omega

/-- The search among so many numbers finds a free name. -/
theorem firstFree_not_blocked (blocked : List String) (kind : SymbolKind) (n : Nat) :
    shortName kind (firstFree blocked kind (blocked.length + 1) n) ∉ blocked := by
  rcases firstFree_cases blocked kind (blocked.length + 1) n with hfree | hall
  · exact hfree
  · obtain ⟨i, hi, hfree⟩ := exists_not_blocked blocked kind n
    exact absurd (hall i hi) hfree

/-! ### Fresh names -/

namespace Supply

theorem next_eq_shortName (s : Supply) (kind : SymbolKind) : ∃ n, (s.next kind).1 = shortName kind n :=
  ⟨_, rfl⟩

theorem next_not_blocked (s : Supply) (kind : SymbolKind) : (s.next kind).1 ∉ s.blocked :=
  firstFree_not_blocked s.blocked kind (s.counter kind)

theorem next_taken (s : Supply) (kind : SymbolKind) :
    (s.next kind).2.taken = (s.next kind).1 :: s.taken := rfl

end Supply

end ContractBasic
