/-
The search for a free name.

A supply looks at the names that its numbers give, one after the other, and stops at the first that is
neither taken nor reserved.  The search as such has no bound.  It ends all the same: distinct numbers
give distinct names, and there are only so many names to pass over.

* `Supply.IsFree` — the numbers that give a free name
* `Supply.Search` — the search, name by name
* `Supply.Search.isLeast` — a search that ends has found the first free number
* `Supply.exists_isFree` — how far the next free number can be
* `Supply.search_next` — the search ends, and a supply gives out the name that it finds
-/
import ContractBasic.Proofs.Rename.Supply
import Mathlib.Data.Finset.Card
import Mathlib.Order.Bounds.Defs

namespace ContractBasic

namespace Supply

variable {s : Supply} {kind : SymbolKind}

/-! ### Searches -/

/-- Whether the name of a kind and a number, in small letters, is neither taken nor reserved. -/
def IsFree (s : Supply) (kind : SymbolKind) (n : Nat) : Prop :=
  (shortName kind n).toLower ∉ s.taken ∧ (shortName kind n).toLower ∉ reservedWords

/-- The search from a number on, which looks at so many names and stops at a number. -/
inductive Search (s : Supply) (kind : SymbolKind) : (start looked stop : Nat) → Prop where
  | found {n : Nat} (hfree : s.IsFree kind n) : Search s kind n 1 n
  | passed {n looked stop : Nat} (hblocked : ¬ s.IsFree kind n)
      (hlater : Search s kind (n + 1) looked stop) : Search s kind n (looked + 1) stop

/-- A search that ends has found the first free number. -/
theorem Search.isLeast {start looked stop : Nat} (h : s.Search kind start looked stop) :
    IsLeast {n | start ≤ n ∧ s.IsFree kind n} stop := by
  induction h with
  | found hfree => exact ⟨⟨le_rfl, hfree⟩, fun n hn => hn.1⟩
  | @passed start looked stop hblocked hlater ih =>
    refine ⟨⟨Nat.le_of_succ_le ih.1.1, ih.1.2⟩, fun n hn => ih.2 ⟨?_, hn.2⟩⟩
    -- the number that was passed is not free
    refine Nat.lt_of_le_of_ne hn.1 ?_
    rintro rfl
    exact hblocked hn.2

/-! ### Searches end -/

theorem isFree_iff {n : Nat} : s.IsFree kind n ↔ shortName kind n ∉ s.blocked := by
  rw [IsFree, toLower_shortName, blocked, List.mem_append, not_or]

/-- There is a free number no further on than there are names that are taken or reserved. -/
theorem exists_isFree (s : Supply) (kind : SymbolKind) (start : Nat) :
    ∃ i < s.taken.toFinset.card + reservedWords.length + 1, s.IsFree kind (start + i) := by
  -- a name that was taken twice is one name to pass over
  obtain ⟨i, hi, hfree⟩ := exists_not_blocked (s.taken.dedup ++ reservedWords) kind start
  rw [List.length_append] at hi
  rw [List.mem_append, List.mem_dedup, ← List.mem_append] at hfree
  exact ⟨i, by rwa [List.card_toFinset], isFree_iff.mpr hfree⟩

/-- Where there is a free number within reach, the search ends there or before, and the bounded search
finds the same. -/
theorem search_firstFree {start i fuel : Nat} (hi : i < fuel) (hfree : s.IsFree kind (start + i)) :
    ∃ looked ≤ i + 1, s.Search kind start looked (firstFree s.blocked kind fuel start) := by
  -- each number that is passed brings the free one nearer and costs one unit of fuel
  induction fuel generalizing start i with
  | zero => omega
  | succ fuel ih =>
    rw [firstFree]
    by_cases hstart : shortName kind start ∈ s.blocked
    · rw [if_pos hstart]
      have hblocked : ¬ s.IsFree kind start := fun h => isFree_iff.mp h hstart
      cases i with
      | zero => exact absurd hfree hblocked
      | succ i =>
        rw [show start + (i + 1) = start + 1 + i by omega] at hfree
        obtain ⟨looked, hlooked, hlater⟩ := ih (Nat.lt_of_succ_lt_succ hi) hfree
        exact ⟨looked + 1, by omega, .passed hblocked hlater⟩
    · rw [if_neg hstart]
      exact ⟨1, by omega, .found (isFree_iff.mpr hstart)⟩

/-- **The search for a free name ends** after at most one name more than are taken and reserved, whatever
is taken and wherever it starts; a supply gives out the name of the first free number, counting up, and
goes on behind it.  Distinct numbers have distinct numerals. -/
theorem search_next (s : Supply) (kind : SymbolKind) :
    Function.Injective (Text.numeral 36) ∧
    ∃ looked n, s.Search kind (s.counter kind) looked n ∧
      looked ≤ s.taken.toFinset.card + reservedWords.length + 1 ∧
      IsLeast {m | s.counter kind ≤ m ∧ s.IsFree kind m} n ∧
      s.next kind = (shortName kind n,
        { s.setCounter kind (n + 1) with taken := shortName kind n :: s.taken }) := by
  refine ⟨fun m n => Text.numeral_injective (by omega) (by omega), ?_⟩
  obtain ⟨i, hi, hfree⟩ := exists_isFree s kind (s.counter kind)
  have hcard : s.taken.toFinset.card ≤ s.taken.length := s.taken.toFinset_card_le
  -- among so many numbers not all are blocked, so the fuel lasts until a free one
  have hreach : i < s.blocked.length + 1 := by
    rw [blocked, List.length_append]
    omega
  obtain ⟨looked, hlooked, hsearch⟩ := search_firstFree hreach hfree
  exact ⟨looked, _, hsearch, by omega, hsearch.isLeast, rfl⟩

-- `a0` is taken twice, `as` is reserved
example : (Supply.next ⟨0, 0, 0, ["a0", "A1", "a0"]⟩ .param).1 = "a1" ∧
    (Supply.next ⟨0, 28, 0, []⟩ .param).1 = "at" := by
  decide +kernel

end Supply

end ContractBasic
