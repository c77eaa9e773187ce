import DeskCalculator.Character.WhiteSpace
import DeskCalculator.Character.Word

/-!
# Letters, digits and white space

The classes of ASCII as bounds on the number of a character, and what the wider classes say of them and of
one another.
-/

namespace DeskCalculator.Character

theorem forall_mem_of_all {α : Type} {p : α → Prop} [DecidablePred p] {l : List α}
    (h : l.all (fun a => decide (p a)) = true) : ∀ a ∈ l, p a := by
  simpa using h

/-- What holds of the first characters of Unicode, by their numbers. -/
theorem forall_of_ofNat {b : Nat} {P : Char → Prop} (h : ∀ n < b, P (Char.ofNat n)) {c : Char}
    (hc : c.toNat < b) : P c :=
  Char.ofNat_toNat c ▸ h c.toNat hc

/-! ## Letters -/

theorem isAlpha_iff {c : Char} :
    c.isAlpha = true ↔ (65 ≤ c.toNat ∧ c.toNat ≤ 90) ∨ (97 ≤ c.toNat ∧ c.toNat ≤ 122) := by
  delta Char.isAlpha Char.isUpper Char.isLower
  simp [UInt32.le_iff_toNat_le, ← Char.toNat_val]

theorem lt_of_isAlpha {c : Char} (h : c.isAlpha = true) : c.toNat < 128 := by
  rcases isAlpha_iff.mp h with hc | hc <;> omega

theorem isAlpha_of_toLower {c : Char} (h : c.toLower.isAlpha = true) : c.isAlpha = true := by
  unfold Char.toLower at h
  split at h
  · rename_i hc
    refine isAlpha_iff.mpr (.inl ?_)
    simpa [UInt32.le_iff_toNat_le, ← Char.toNat_val] using hc
  · exact h

theorem eq_of_toLower {letter c : Char} (hl : letter.isAlpha = true) (h : c.toLower = letter) :
    c = letter ∨ c = letter.toUpper := by
  subst h
  exact forall_of_ofNat (P := fun c => c = c.toLower ∨ c = c.toLower.toUpper) (b := 128) (by decide)
    (lt_of_isAlpha (isAlpha_of_toLower hl))

theorem isWord_of_isAlpha {c : Char} (h : c.isAlpha = true) : isWord c = true :=
  isWord_of_isAlphanum (by simp [Char.isAlphanum, h])

theorem isWord_toLower {c : Char} (h : isWord c = true) : isWord c.toLower = true := by
  by_cases hc : c.toNat < 128
  · exact forall_of_ofNat (P := fun c => isWord c = true → isWord c.toLower = true)
      (by decide +kernel) hc h
  · unfold Char.toLower
    split
    · rename_i hu
      have hu : 65 ≤ c.toNat ∧ c.toNat ≤ 90 := by
        simpa [UInt32.le_iff_toNat_le, ← Char.toNat_val] using hu
      omega
    · exact h

/-! ## Digits -/

def asciiDigits : List Char := ['0', '1', '2', '3', '4', '5', '6', '7', '8', '9']

theorem isDigit_iff {c : Char} : c.isDigit = true ↔ 48 ≤ c.toNat ∧ c.toNat ≤ 57 := by
  simp [Char.isDigit, UInt32.le_iff_toNat_le, ← Char.toNat_val]

theorem mem_asciiDigits {c : Char} (h : c.isDigit = true) : c ∈ asciiDigits := by
  obtain ⟨-, hu⟩ := isDigit_iff.mp h
  exact forall_of_ofNat (P := fun c => c.isDigit = true → c ∈ asciiDigits) (b := 58) (by decide)
    (by omega) h

theorem isDecimalDigit_of_isAlpha {c : Char} (h : c.isAlpha = true) : isDecimalDigit c = false := by
  rcases isAlpha_iff.mp h with hc | hc
  · rw [isDecimalDigit_of_lt (by omega)]
    simpa [← Bool.not_eq_true, isDigit_iff] using by omega
  · rw [isDecimalDigit_of_lt (by omega)]
    simpa [← Bool.not_eq_true, isDigit_iff] using by omega

theorem isWord_of_isDecimalDigit {c : Char} (h : isDecimalDigit c = true) : isWord c = true := by
  simp [isWord, h]

/-! ## White space -/

/-- White space is no part of a word. -/
theorem isWord_of_isWhiteSpace {c : Char} (h : isWhiteSpace c = true) : isWord c = false := by
  have hall : ∀ r ∈ whiteSpaceRanges, ∀ i < r.2 + 1 - r.1, isWord (Char.ofNat (r.1 + i)) = false := by
    decide +kernel
  obtain ⟨r, hr, hl, hu⟩ := CodeRanges.contains_iff.mp h
  have := hall r hr (c.toNat - r.1) (by omega)
  rwa [Nat.add_sub_cancel' hl, Char.ofNat_toNat] at this

end DeskCalculator.Character
