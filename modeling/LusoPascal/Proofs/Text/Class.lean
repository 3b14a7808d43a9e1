import LusoPascal.Token.Trivia

/-!
# Classes of characters

Letters, digits and blanks as ranges of code points. The three are apart.

* `isDigit_iff`, `isAlpha_iff`, `isSpace_iff`: the ranges;
* `isAlpha_of_isDigit`, `isSpace_of_isAlphanum`: no character is in two classes;
* `newline_not_mem_of_isBlank`: what holds no blank stands on one line.
-/

namespace LusoPascal

variable {c : Char}

theorem isDigit_iff : c.isDigit = true ↔ 48 ≤ c.toNat ∧ c.toNat ≤ 57 := by
  simp only [Char.isDigit, Bool.and_eq_true, decide_eq_true_eq, ge_iff_le,
    UInt32.le_iff_toNat_le]
  rfl

theorem isAlpha_iff :
    c.isAlpha = true ↔ 65 ≤ c.toNat ∧ c.toNat ≤ 90 ∨ 97 ≤ c.toNat ∧ c.toNat ≤ 122 := by
  have hupper : c.isUpper = true ↔ 65 ≤ c.toNat ∧ c.toNat ≤ 90 := decide_eq_true_iff
  have hlower : c.isLower = true ↔ 97 ≤ c.toNat ∧ c.toNat ≤ 122 :=
    (Bool.and_eq_true_iff ..).trans (and_congr decide_eq_true_iff decide_eq_true_iff)
  exact (Bool.or_eq_true_iff ..).trans (or_congr hupper hlower)

theorem isSpace_iff : isSpace c = true ↔
    (∃ range ∈ blankRanges, range.1 ≤ c.toNat ∧ c.toNat ≤ range.2) ∨ c = '\ufeff' := by
  simp [isSpace, isBlank]

theorem isAlpha_of_isDigit (h : c.isDigit = true) : c.isAlpha = false := by
  rw [isDigit_iff] at h
  rw [Bool.eq_false_iff, ne_eq, isAlpha_iff]
  omega

theorem isSpace_of_isAlphanum (h : c.isAlphanum = true) : isSpace c = false := by
  rw [Char.isAlphanum, Bool.or_eq_true, isAlpha_iff, isDigit_iff] at h
  rw [Bool.eq_false_iff, ne_eq, isSpace_iff]
  rintro (⟨range, hrange, hle⟩ | rfl)
  · simp only [blankRanges, List.mem_cons, List.not_mem_nil, or_false] at hrange
    rcases hrange with rfl | rfl | rfl | rfl | rfl | rfl | rfl | rfl | rfl | rfl <;> omega
  · revert h
    decide

theorem isBlank_of_isAlphanum (h : c.isAlphanum = true) : isBlank c = false :=
  (Bool.or_eq_false_iff.mp (isSpace_of_isAlphanum h)).1

theorem newline_not_mem_of_isBlank {text : List Char} (h : ∀ c ∈ text, isBlank c = false) :
    '\n' ∉ text := by
  intro hmem
  have hblank := h _ hmem
  rw [isBlank_newline] at hblank
  cases hblank

end LusoPascal
