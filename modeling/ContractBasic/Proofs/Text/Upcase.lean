/-
Letters of texts in capitals.

No image of a letter is a small letter of ASCII: the tables map to other letters, and an ASCII letter
becomes its capital.  So a text in capitals is no name that starts with a small letter.

* `Text.forall_ascii` — facts about the characters of ASCII
* `Text.isLower_of_mem_upcaseChar`, `Text.isLower_of_mem_upcase` — the letters of images and of texts
  in capitals
-/
import ContractBasic.Text.Upcase

namespace ContractBasic.Text

/-- What holds of the first characters by their numbers holds of every character of ASCII. -/
theorem forall_ascii {P : Char → Prop} (h : ∀ n < 0x80, P (Char.ofNat n)) {c : Char}
    (hc : c.toNat < 0x80) : P c := by
  have hP := h c.toNat hc
  rwa [Char.ofNat_toNat] at hP

theorem isLower_iff {c : Char} : c.isLower = true ↔ 0x61 ≤ c.toNat ∧ c.toNat ≤ 0x7A := by
  show (decide (c.val ≥ 'a'.val) && decide (c.val ≤ 'z'.val)) = true ↔ _
  rw [Bool.and_eq_true, decide_eq_true_eq, decide_eq_true_eq]
  exact Iff.rfl

/-- The character of a number that is no small letter is none. -/
theorem isLower_ofNat {n : Nat} (h : n < 0x61 ∨ 0x7A < n) : (Char.ofNat n).isLower = false := by
  rw [Bool.eq_false_iff, Ne, isLower_iff]
  by_cases hn : n.isValidChar
  · have hnat : (Char.ofNat n).toNat = n := by
      rw [Char.ofNat, dif_pos hn]
      rfl
    omega
  · rw [Char.ofNat, dif_neg hn]
    decide

/-- The images of a run lie on one side of the small letters. -/
theorem image_of_mem_caseRuns : ∀ run ∈ caseRuns,
    run.image + (run.last - run.first) < 0x61 ∨ 0x7A < run.image := by
  decide +kernel

theorem image_of_mem_growingLetters : ∀ e ∈ growingLetters, ∀ n ∈ e.2, n < 0x61 ∨ 0x7A < n := by
  decide +kernel

/-- The image of a letter holds no small letter of ASCII. -/
theorem isLower_of_mem_upcaseChar {c d : Char} (h : d ∈ upcaseChar c) : d.isLower = false := by
  rw [upcaseChar] at h
  by_cases hascii : c.toNat < 0x80
  · rw [if_pos hascii, List.mem_singleton] at h
    rw [h]
    exact forall_ascii (P := fun c => c.toUpper.isLower = false) (by decide +kernel) hascii
  · -- beyond ASCII the tables decide
    rw [if_neg hascii] at h
    cases hgrows : growingLetters.lookup c.toNat with
    | some image =>
      rw [hgrows] at h
      obtain ⟨n, hn, rfl⟩ := List.mem_map.mp h
      obtain ⟨before, behind, hcut, -⟩ := List.lookup_eq_some_iff.mp hgrows
      refine isLower_ofNat (image_of_mem_growingLetters (c.toNat, image) ?_ n hn)
      rw [hcut]
      simp
    | none =>
      rw [hgrows, List.mem_singleton] at h
      rw [h]
      cases hrun : caseRuns.findSome? (·.image? c.toNat) with
      | some n =>
        obtain ⟨run, hmem, himage⟩ := List.exists_of_findSome?_eq_some hrun
        have hside := image_of_mem_caseRuns run hmem
        rw [CaseRun.image?] at himage
        split at himage
        · cases himage
          exact isLower_ofNat (by omega)
        · cases himage
      | none =>
        -- the letter itself, which is beyond ASCII
        show c.isLower = false
        rw [Bool.eq_false_iff, Ne, isLower_iff]
        omega

/-- **A text in capitals holds no small letter of ASCII.** -/
theorem isLower_of_mem_upcase {s : String} {c : Char} (h : c ∈ (upcase s).toList) :
    c.isLower = false := by
  rw [upcase, String.toList_ofList] at h
  obtain ⟨d, -, hc⟩ := List.mem_flatMap.mp h
  exact isLower_of_mem_upcaseChar hc

end ContractBasic.Text
