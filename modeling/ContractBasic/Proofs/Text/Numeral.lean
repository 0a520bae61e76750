/-
Numerals and the numbers they stand for.

* `Text.value_numeral` — a number is the value of its digits in base ten
* `Text.numeral_injective` — numbers with the same digits in a base are the same
* `Text.isDigit_of_mem_numeral` — what digits are
* `Text.IsNumeral`, `Text.isNumeral_numeral` — how a number is written in a base
-/
import ContractBasic.Text.Numeral

namespace ContractBasic.Text

/-! ### Digits -/

theorem isDigit_digit : ∀ n < 10, (digit n).isDigit = true := by decide +kernel

theorem toNat_digit : ∀ n < 10, (digit n).toNat - '0'.toNat = n := by decide +kernel

theorem digit_injective : ∀ m < 36, ∀ n < 36, digit m = digit n → m = n := by decide +kernel

/-! ### Numerals -/

theorem numeral_of_lt {base n : Nat} (h : n < base) : numeral base n = [digit n] := by
  rw [numeral, dif_neg (by omega)]

theorem numeral_of_le {base n : Nat} (hb : 2 ≤ base) (h : base ≤ n) :
    numeral base n = numeral base (n / base) ++ [digit (n % base)] := by
  rw [numeral, dif_pos ⟨hb, h⟩]

/-- What holds of the digits below a base holds of every digit of a numeral in it. -/
theorem forall_mem_numeral {base : Nat} (hb : 2 ≤ base) {P : Char → Prop}
    (hP : ∀ n < base, P (digit n)) (n : Nat) : ∀ c ∈ numeral base n, P c := by
  induction n using Nat.strongRecOn with
  | ind n ih =>
    rcases Nat.lt_or_ge n base with h | h
    · rw [numeral_of_lt h]
      intro c hc
      rw [List.mem_singleton.mp hc]
      exact hP n h
    · rw [numeral_of_le hb h]
      intro c hc
      rcases List.mem_append.mp hc with hc | hc
      · exact ih (n / base) (Nat.div_lt_self (by omega) (by omega)) c hc
      · rw [List.mem_singleton.mp hc]
        exact hP _ (Nat.mod_lt n (by omega))

theorem isDigit_of_mem_numeral {n : Nat} {c : Char} (h : c ∈ numeral 10 n) : c.isDigit = true :=
  forall_mem_numeral (by decide) (P := fun c => c.isDigit = true) isDigit_digit n c h

theorem numeral_ne_nil (base n : Nat) : numeral base n ≠ [] := by
  unfold numeral
  split <;> simp

/-- A number is the value of its digits. -/
theorem value_numeral (n : Nat) : value (numeral 10 n) = n := by
  induction n using Nat.strongRecOn with
  | ind n ih =>
    rcases Nat.lt_or_ge n 10 with h | h
    · have hdigit := toNat_digit n h
      simpa [numeral_of_lt h, value] using hdigit
    · have hlast : (digit (n % 10)).toNat - '0'.toNat = n % 10 :=
        toNat_digit _ (Nat.mod_lt n (by omega))
      have hinit : value (numeral 10 (n / 10)) = n / 10 := ih _ (by omega)
      rw [numeral_of_le (by omega) h, value, List.foldl_append]
      change 10 * value (numeral 10 (n / 10)) + _ = n
      rw [hinit, hlast]
      omega

/-- Numbers with the same digits are the same. -/
theorem numeral_injective {base : Nat} (hb : 2 ≤ base) (hmax : base ≤ 36) {m n : Nat}
    (h : numeral base m = numeral base n) : m = n := by
  induction m using Nat.strongRecOn generalizing n with
  | ind m ih =>
    -- one digit or several on either side; numerals of different lengths are not equal
    rcases Nat.lt_or_ge m base with hm | hm <;> rcases Nat.lt_or_ge n base with hn | hn
    · rw [numeral_of_lt hm, numeral_of_lt hn] at h
      exact digit_injective m (by omega) n (by omega) (List.singleton_inj.mp h)
    · rw [numeral_of_lt hm, numeral_of_le hb hn] at h
      have hlen := congrArg List.length h
      have hpos := List.length_pos_iff.mpr (numeral_ne_nil base (n / base))
      simp only [List.length_append, List.length_singleton] at hlen
      omega
    · rw [numeral_of_le hb hm, numeral_of_lt hn] at h
      have hlen := congrArg List.length h
      have hpos := List.length_pos_iff.mpr (numeral_ne_nil base (m / base))
      simp only [List.length_append, List.length_singleton] at hlen
      omega
    · rw [numeral_of_le hb hm, numeral_of_le hb hn] at h
      -- both have several digits: the last ones agree, and so do the numerals before them
      obtain ⟨hinit, hlast⟩ := List.append_inj' h rfl
      have hdiv : m / base = n / base :=
        ih (m / base) (Nat.div_lt_self (by omega) (by omega)) hinit
      have hmod : m % base = n % base := by
        have hlm := Nat.mod_lt m (show 0 < base by omega)
        have hln := Nat.mod_lt n (show 0 < base by omega)
        exact digit_injective _ (by omega) _ (by omega) (List.singleton_inj.mp hlast)
      rw [← Nat.div_add_mod m base, hdiv, hmod, Nat.div_add_mod]

/-! ### How numbers are written -/

/-- The digits of base thirty-six in ascending order. -/
def alphabet : List Char := "0123456789abcdefghijklmnopqrstuvwxyz".toList

/-- Whether a row of characters is how `n` is written in a base of at most thirty-six: digits below
the base, most significant first, that stand for `n`, and no zero in front of another digit. -/
structure IsNumeral (base n : Nat) (cs : List Char) : Prop where
  ne_nil : cs ≠ []
  digits : ∀ c ∈ cs, c ∈ alphabet.take base
  leading : cs.head? = some '0' → cs = ['0']
  value : cs.foldl (fun k c => base * k + alphabet.idxOf c) 0 = n

theorem getElem?_alphabet : ∀ d < 36, alphabet[d]? = some (digit d) := by decide +kernel

theorem idxOf_digit : ∀ d < 36, alphabet.idxOf (digit d) = d := by decide +kernel

theorem digit_mem_take {base d : Nat} (hmax : base ≤ 36) (hd : d < base) :
    digit d ∈ alphabet.take base := by
  rw [List.mem_iff_getElem?]
  refine ⟨d, ?_⟩
  rw [List.getElem?_take, if_pos hd, getElem?_alphabet d (by omega)]

/-- Only the numeral of zero starts with a zero. -/
theorem eq_zero_of_head?_numeral {base n : Nat} (hb : 2 ≤ base) (hmax : base ≤ 36)
    (h : (numeral base n).head? = some '0') : n = 0 := by
  induction n using Nat.strongRecOn with
  | ind n ih =>
    rcases Nat.lt_or_ge n base with hn | hn
    · rw [numeral_of_lt hn, List.head?_cons, Option.some_inj] at h
      exact digit_injective n (by omega) 0 (by omega) h
    · -- the first digit is that of the quotient, which is not zero
      have hquot : 0 < n / base := Nat.div_pos hn (by omega)
      obtain ⟨c, cs, hcs⟩ := List.exists_cons_of_ne_nil (numeral_ne_nil base (n / base))
      rw [numeral_of_le hb hn, hcs] at h
      have hzero := ih (n / base) (Nat.div_lt_self (by omega) (by omega)) (by rw [hcs]; exact h)
      omega

/-- **The numeral of a number is how the number is written.** -/
theorem isNumeral_numeral {base : Nat} (hb : 2 ≤ base) (hmax : base ≤ 36) (n : Nat) :
    IsNumeral base n (numeral base n) := by
  refine ⟨numeral_ne_nil base n, ?_, ?_, ?_⟩
  · exact forall_mem_numeral hb (fun d hd => digit_mem_take hmax hd) n
  · intro h
    rw [eq_zero_of_head?_numeral hb hmax h, numeral_of_lt (by omega)]
    rfl
  · induction n using Nat.strongRecOn with
    | ind n ih =>
      rcases Nat.lt_or_ge n base with hn | hn
      · rw [numeral_of_lt hn, List.foldl_cons, List.foldl_nil, idxOf_digit n (by omega)]
        omega
      · have hmod : n % base < base := Nat.mod_lt n (by omega)
        rw [numeral_of_le hb hn, List.foldl_append, List.foldl_cons, List.foldl_nil,
          ih (n / base) (Nat.div_lt_self (by omega) (by omega)), idxOf_digit _ (by omega),
          Nat.div_add_mod]

end ContractBasic.Text
