import DeskCalculator.Proofs.Answer
import DeskCalculator.Proofs.Decimal.Significant

/-!
# The layout of displayed numbers

Whatever is shown is written without a zero or a point that could be left out, and zero has no sign. A
value that is not nearly whole shows its first twelve digits, rounded once: the power of ten that decides
on the layout is the one after rounding, and the places that it leaves give the same digits.
-/

namespace DeskCalculator

open Binary64

/-! ## Numbers without superfluous digits -/

/-- The digits do not begin with a zero, unless they are the zero alone. -/
def NoLeadingZero (digits : List Char) : Prop := digits = ['0'] ∨ digits.head? ≠ some '0'

/-- Nothing of the number could be left out: no zero before its digits or at the end of its fraction, and
no point without a fraction. -/
structure Numeral.IsTidy (n : Numeral) : Prop extends n.IsWritten where
  leading : NoLeadingZero n.whole
  trailing : n.fraction.getLast? ≠ some '0'
  exponentLeading : ∀ e ∈ n.exponent, NoLeadingZero e.digits

theorem head?_toDigits_ne {n : ℕ} (h : n ≠ 0) : (Nat.toDigits 10 n).head? ≠ some '0' := by
  induction n using Nat.strong_induction_on with
  | h n ih =>
      rw [Nat.toDigits_eq_if (by decide)]
      split
      · rename_i hlt
        interval_cases n <;> first | exact absurd rfl h | decide
      · rw [List.head?_append_of_ne_nil _ Nat.toDigits_ne_nil]
        exact ih (n / 10) (by omega) (by omega)

theorem noLeadingZero_toDigits (n : ℕ) : NoLeadingZero (Nat.toDigits 10 n) := by
  by_cases h : n = 0
  · exact .inl (by rw [h, Nat.toDigits_zero])
  · exact .inr (head?_toDigits_ne h)

namespace Decimal

theorem getLast?_dropTrailingZeros (digits : List Char) :
    (dropTrailingZeros digits).getLast? ≠ some '0' := by
  rw [dropTrailingZeros, List.getLast?_reverse]
  intro h
  have hnot := List.head?_dropWhile_not (· == '0') digits.reverse
  rw [h] at hnot
  simp at hnot

theorem isTidy_pointedNumeral {n places : ℕ} {exponent : Option WrittenExponent}
    (he : ∀ e ∈ exponent, e.IsWritten ∧ NoLeadingZero e.digits) :
    (pointedNumeral n places exponent).IsTidy where
  toIsWritten := isWritten_pointedNumeral fun e h => (he e h).1
  leading := noLeadingZero_toDigits _
  trailing := getLast?_dropTrailingZeros _
  exponentLeading e h := (he e h).2

theorem isTidy_plainNumeral (d : Decimal) : d.plainNumeral.IsTidy :=
  isTidy_pointedNumeral (by simp)

theorem isTidy_scientificNumeral (d : Decimal) : d.scientificNumeral.IsTidy := by
  refine isTidy_pointedNumeral ?_
  rintro e ⟨⟩
  exact ⟨isWritten_signedExponent _, noLeadingZero_toDigits _⟩

/-- With an exponent one digit stands before the point. -/
theorem length_whole_scientificNumeral (d : Decimal) : d.scientificNumeral.whole.length = 1 := by
  have hlt : d.digits / 10 ^ ((Nat.toDigits 10 d.digits).length - 1) < 10 := by
    rw [Nat.div_lt_iff_lt_mul (Nat.pow_pos (by decide)), Nat.mul_comm, ← Nat.pow_succ,
      Nat.succ_eq_add_one, Nat.sub_add_cancel Nat.length_toDigits_pos]
    exact lt_pow_length_toDigits d.digits
  rw [scientificNumeral, pointedNumeral]
  simp only
  rw [Nat.toDigits_of_lt_base hlt, List.length_singleton]

end Decimal

/-! ## The number that is shown -/

namespace Display

open Decimal

def layoutNumeral (d : Decimal) : Numeral :=
  if -6 ≤ d.leadingExponent ∧ d.leadingExponent < places then d.plainNumeral else d.scientificNumeral

/-- What is written of a value, without its sign. -/
def magnitudeNumeral (x : Float) : Numeral :=
  if isNearlyWhole x then
    if nearestWhole x < plainLimit then ⟨Nat.toDigits 10 (nearestWhole x), false, [], none⟩
    else (shortest (magnitudeBits x)).scientificNumeral
  else layoutNumeral (significant places (units x) unitsPerOne)

theorem text_layoutNumeral (d : Decimal) : (layoutNumeral d).text = layout d := by
  unfold layoutNumeral layout
  split
  · exact text_plainNumeral d
  · exact text_scientificNumeral d

theorem isTidy_layoutNumeral (d : Decimal) : (layoutNumeral d).IsTidy := by
  unfold layoutNumeral
  split
  · exact isTidy_plainNumeral d
  · exact isTidy_scientificNumeral d

theorem isTidy_toDigits (n : ℕ) : Numeral.IsTidy ⟨Nat.toDigits 10 n, false, [], none⟩ where
  toIsWritten := .of_digits Nat.toDigits_ne_nil isDigit_of_mem_toDigits
  leading := noLeadingZero_toDigits n
  trailing := by simp
  exponentLeading := by simp

theorem text_magnitudeNumeral (x : Float) : (magnitudeNumeral x).text = magnitudeText x := by
  unfold magnitudeNumeral magnitudeText
  dsimp only
  split_ifs
  · simp [Numeral.text]
  · exact text_scientificNumeral _
  · exact text_layoutNumeral _

theorem isTidy_magnitudeNumeral (x : Float) : (magnitudeNumeral x).IsTidy := by
  unfold magnitudeNumeral
  split_ifs
  · exact isTidy_toDigits _
  · exact isTidy_scientificNumeral _
  · exact isTidy_layoutNumeral _

theorem value_magnitudeNumeral (x : Float) : (magnitudeNumeral x).decimal.value = shown x :=
  Writes.unique ⟨_, (isTidy_magnitudeNumeral x).toIsWritten, text_magnitudeNumeral x, rfl⟩
    (writes_magnitudeText x)

/-! ## Values that are not nearly whole -/

/-- The number is the value to the count of places, with the layout that its power of ten asks for. -/
structure IsLaidOut (q : ℚ) (n : Numeral) (e : ℤ) : Prop where
  significant : IsSignificant places q n.decimal.value
  /-- The power of ten is that of the rounded number. -/
  leading : 10 ^ e ≤ n.decimal.value ∧ n.decimal.value < 10 ^ (e + 1)
  plain : n.exponent = none ↔ -6 ≤ e ∧ e ≤ 11
  /-- Rounding to the places that are left behind the point gives the same number. -/
  fixed : IsNearestMultiple (e - 11) q n.decimal.value
  scientific : ∀ x ∈ n.exponent, x = signedExponent e ∧ n.whole.length = 1

variable {v : Float}

theorem toleranceBits_le_of_fraction (h : ¬ NearWhole (value v)) : toleranceBits ≤ magnitudeBits v := by
  rw [← magnitude_le_iff, ← abs_value, ← not_lt]
  refine fun hlt => h ⟨0, ?_⟩
  rwa [Int.cast_zero, sub_zero]

theorem isLaidOut_magnitudeNumeral (h : ¬ NearWhole (value v)) :
    IsLaidOut |value v| (magnitudeNumeral v)
      (significant places (units v) unitsPerOne).leadingExponent := by
  have hn : ¬ isNearlyWhole v = true := (isNearlyWhole_iff v).not.mpr h
  have hpos : 0 < units v := units_pos (toleranceBits_le_of_fraction h)
  have hplaces : places = 11 + 1 := rfl
  have hvalue :
      (magnitudeNumeral v).decimal.value = (significant places (units v) unitsPerOne).value := by
    rw [value_magnitudeNumeral, shown_of_fraction hn]
  have hq : |value v| = (units v : ℚ) / unitsPerOne := abs_value v
  have hdigits : (significant places (units v) unitsPerOne).digits ≠ 0 :=
    digits_significant_ne_zero hpos unitsPerOne_pos 11
  have hnumeral : magnitudeNumeral v = layoutNumeral (significant places (units v) unitsPerOne) :=
    if_neg hn
  constructor
  · rw [hvalue, hq]
    exact isSignificant_significant hpos unitsPerOne_pos 11
  · rw [hvalue]
    exact ⟨pow_leadingExponent_le hdigits, lt_pow_leadingExponent _⟩
  · rw [hnumeral, layoutNumeral]
    split
    · rename_i hplain
      exact iff_of_true rfl ⟨hplain.1, by have := hplain.2; rw [hplaces] at this; omega⟩
    · rename_i hplain
      refine iff_of_false (by simp [scientificNumeral, pointedNumeral]) fun he => hplain ⟨he.1, ?_⟩
      have := he.2
      rw [hplaces]
      omega
  · rw [hvalue, hq]
    exact isNearestMultiple_leadingExponent hpos unitsPerOne_pos 11
  · intro x hx
    rw [hnumeral, layoutNumeral] at hx ⊢
    split at hx
    · cases hx
    · rename_i hplain
      obtain rfl := Option.some.inj hx
      rw [if_neg hplain]
      exact ⟨rfl, length_whole_scientificNumeral _⟩

/-! ## Texts -/

theorem text_of_small (h : magnitudeBits v < toleranceBits) : text v = "0" := by
  have hm : magnitude (magnitudeBits v) < magnitude toleranceBits := magnitude_lt_iff.mpr h
  have hnear : isNearlyWhole v = true := by
    refine (isNearlyWhole_iff_magnitude v).mpr ⟨0, ?_⟩
    rwa [Int.cast_zero, sub_zero, abs_of_nonneg (magnitude_nonneg _)]
  have hwhole : nearestWhole v = 0 := by
    have hle := (abs_le.mp (abs_sub_nearestWhole v)).1
    have hsmall : (1 : ℚ) / 10 ^ 12 < 1 / 2 := by norm_num
    have hlt : (nearestWhole v : ℚ) < 1 := by linarith [tolerance_lt]
    exact Nat.lt_one_iff.mp (by exact_mod_cast hlt)
  have htop : ¬ infinity ≤ magnitudeBits v := Nat.not_le.mpr (h.trans (by decide))
  rw [text, if_neg htop, hnear, hwhole]
  rfl

/-- A displayed number is tidy, and only a number other than zero has a sign. What is not nearly whole is
the value to twelve digits, written out if its power of ten is between -6 and 11 and with an exponent
otherwise. -/
theorem text_layout (hf : v.isFinite = true) :
    ∃ negative n, (text v).toList = signed negative n.text ∧ n.IsTidy ∧
      (negative = true → n.decimal.value ≠ 0) ∧
      (¬ NearWhole (value v) → negative = isNegative v ∧ ∃ e, IsLaidOut |value v| n e) := by
  by_cases hlow : toleranceBits ≤ magnitudeBits v
  · have htop := isFinite_iff.mp hf
    refine ⟨isNegative v, magnitudeNumeral v, ?_, isTidy_magnitudeNumeral v, fun _ => ?_, fun h => ?_⟩
    · rw [text_of_result hlow htop, String.toList_ofList, text_magnitudeNumeral]
    · rw [value_magnitudeNumeral]
      exact (tolerance_pos.trans_le (tolerance_le_shown hlow htop)).ne'
    · exact ⟨rfl, _, isLaidOut_magnitudeNumeral h⟩
  · refine ⟨false, ⟨['0'], false, [], none⟩, ?_, isTidy_toDigits 0, nofun, fun h => ?_⟩
    · rw [text_of_small (Nat.lt_of_not_le hlow)]
      rfl
    · exact absurd (toleranceBits_le_of_fraction h) hlow

/-- `999999999999.6` is rounded up to the next power of ten, which has an exponent. -/
theorem text_layout_of_carry :
    (ofBits false 4786511204640092979).isFinite = true ∧
    ¬ NearWhole (value (ofBits false 4786511204640092979)) ∧
    text (ofBits false 4786511204640092979) = "1e+12" ∧
    ∃ n : Numeral, "1e+12".toList = n.text ∧ n.IsTidy ∧ ∃ e,
      IsLaidOut |value (ofBits false 4786511204640092979)| n e := by
  have hf : (ofBits false 4786511204640092979).isFinite = true := by decide +kernel
  have hn : ¬ NearWhole (value (ofBits false 4786511204640092979)) :=
    (isNearlyWhole_iff _).not.mp (by decide +kernel)
  have ht : text (ofBits false 4786511204640092979) = "1e+12" := by decide +kernel
  obtain ⟨negative, n, htext, htidy, -, hlaid⟩ := text_layout hf
  obtain ⟨hs, e, he⟩ := hlaid hn
  have hpositive : isNegative (ofBits false 4786511204640092979) = false := isNegative_ofBits (by decide)
  rw [ht, hs, hpositive] at htext
  exact ⟨hf, hn, ht, n, htext, htidy, e, he⟩

end Display

end DeskCalculator
