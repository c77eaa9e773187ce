import DeskCalculator.Proofs.Decimal.Rounding

/-!
# The nearest number with so many digits

A number with a count of significant digits is the nearest multiple of the unit of its last digit. Where
rounding carries into the next power of ten, it is the nearest multiple of the greater unit too, so the
places that are counted after rounding give the same number.
-/

namespace DeskCalculator.Decimal

open Binary64

/-- `r` is the multiple of `10 ^ k` nearest to `q`; of two that are equally near it is the even one. -/
def IsNearestMultiple (k : ℤ) (q r : ℚ) : Prop :=
  ∃ m : ℕ, r = m * 10 ^ k ∧
    ∀ m' : ℕ, |q - r| ≤ |q - m' * 10 ^ k| ∧ (|q - r| = |q - m' * 10 ^ k| → m' = m ∨ Even m)

/-- `r` is `q` to so many significant digits, counted from the first digit of `q`. -/
def IsSignificant (places : ℕ) (q r : ℚ) : Prop :=
  ∃ e : ℤ, 10 ^ e ≤ q ∧ q < 10 ^ (e + 1) ∧ IsNearestMultiple (e - (places - 1)) q r

/-- What is at most half a unit away is the nearest multiple, if it is even where it is half a unit away. -/
theorem isNearestMultiple_of_abs_sub_le {k : ℤ} {q : ℚ} {m : ℕ} (h : |q - m * 10 ^ k| ≤ 10 ^ k / 2)
    (heven : |q - m * 10 ^ k| = 10 ^ k / 2 → Even m) : IsNearestMultiple k q (m * 10 ^ k) := by
  have hk : (0 : ℚ) < 10 ^ k := by positivity
  refine ⟨m, rfl, fun m' => ?_⟩
  by_cases hm : m' = m
  · subst hm
    exact ⟨le_refl _, fun _ => .inl rfl⟩
  have hone : (1 : ℚ) ≤ |(m' : ℚ) - m| := by
    have : (1 : ℤ) ≤ |(m' : ℤ) - m| := Int.one_le_abs (by omega)
    exact_mod_cast this
  have hunit : (10 : ℚ) ^ k ≤ |(m' : ℚ) * 10 ^ k - m * 10 ^ k| := by
    rw [← sub_mul, abs_mul, abs_of_pos hk]
    exact le_mul_of_one_le_left hk.le hone
  have htri := abs_sub_le ((m' : ℚ) * 10 ^ k) q (m * 10 ^ k)
  rw [abs_sub_comm _ q] at htri
  exact ⟨by linarith, fun he => .inr (heven (by linarith))⟩

section

variable {n d : ℕ} (hn : 0 < n) (hd : 0 < d) (places : ℕ)
include hd

theorem isNearestMultiple_significant :
    IsNearestMultiple (significant places n d).exponent (n / d) (significant places n d).value := by
  obtain ⟨n', d', hd', hdigits, hx⟩ := @significant_spec n d hd places
  have hk : (0 : ℚ) < 10 ^ (significant places n d).exponent := by positivity
  obtain ⟨-, heven⟩ := @abs_sub_roundHalfEven n' d' hd'
  refine isNearestMultiple_of_abs_sub_le (abs_sub_significant hd places) fun h => ?_
  rw [hdigits]
  refine heven ?_
  rw [hdigits, ← div_mul_cancel₀ ((n : ℚ) / d) hk.ne', ← hx, ← sub_mul, abs_mul, abs_of_pos hk] at h
  exact mul_right_cancel₀ hk.ne' (by linarith)

include hn

theorem significant_le_pow :
    (significant (places + 1) n d).value ≤ (10 : ℚ) ^ (leadingExponentOfRatio n d + 1) := by
  obtain ⟨n', d', hd', hdigits, hx⟩ := @significant_spec n d hd (places + 1)
  have hp : (0 : ℚ) < 10 ^ (significant (places + 1) n d).exponent := by positivity
  have hlead : leadingExponentOfRatio n d + 1 =
      ((places + 1 : ℕ) : ℤ) + (significant (places + 1) n d).exponent := by
    have : (significant (places + 1) n d).exponent =
        leadingExponentOfRatio n d - ((places + 1 : Nat) - 1) := rfl
    omega
  have hlt := lt_pow_leadingExponentOfRatio hn hd
  rw [hlead, zpow_add₀ (by norm_num), zpow_natCast] at hlt ⊢
  rw [value, hdigits]
  refine mul_le_mul_of_nonneg_right ?_ hp.le
  have hle : roundHalfEven n' d' ≤ 10 ^ (places + 1) := by
    refine roundHalfEven_le hd' ?_
    rw [hx, div_le_iff₀ hp, Nat.cast_pow, Nat.cast_ofNat]
    exact hlt.le
  exact_mod_cast hle

theorem digits_significant_ne_zero : (significant (places + 1) n d).digits ≠ 0 := by
  intro h0
  have hle := @pow_leadingExponentOfRatio_le_significant n d hd places hn
  rw [value, h0, Nat.cast_zero, zero_mul] at hle
  exact absurd hle (not_le.mpr (by positivity))

/-- Rounding keeps the first digit in its place, or it carries to a power of ten. -/
theorem leadingExponent_significant_cases :
    (significant (places + 1) n d).leadingExponent = leadingExponentOfRatio n d ∨
      (significant (places + 1) n d).leadingExponent = leadingExponentOfRatio n d + 1 ∧
        (significant (places + 1) n d).value = 10 ^ (leadingExponentOfRatio n d + 1) := by
  have hlow := @pow_leadingExponentOfRatio_le_significant n d hd places hn
  have hhigh := significant_le_pow hn hd places
  have hfirst := pow_leadingExponent_le (digits_significant_ne_zero hn hd places)
  have hnext := lt_pow_leadingExponent (significant (places + 1) n d)
  generalize (significant (places + 1) n d).leadingExponent = e at hfirst hnext ⊢
  have hle : leadingExponentOfRatio n d < e + 1 :=
    (zpow_lt_zpow_iff_right₀ (by norm_num)).mp (hlow.trans_lt hnext)
  have hge : e ≤ leadingExponentOfRatio n d + 1 :=
    (zpow_le_zpow_iff_right₀ (by norm_num)).mp (hfirst.trans hhigh)
  rcases Int.lt_or_eq_of_le hge with hlt | rfl
  · exact .inl (by omega)
  · exact .inr ⟨rfl, le_antisymm hhigh hfirst⟩

theorem isSignificant_significant :
    IsSignificant (places + 1) (n / d) (significant (places + 1) n d).value :=
  ⟨leadingExponentOfRatio n d, pow_leadingExponentOfRatio_le hn hd, lt_pow_leadingExponentOfRatio hn hd,
    isNearestMultiple_significant hd (places + 1)⟩

/-- The places that the rounded number has, counted from its own first digit, give the same number. -/
theorem isNearestMultiple_leadingExponent :
    IsNearestMultiple ((significant (places + 1) n d).leadingExponent - places) (n / d)
      (significant (places + 1) n d).value := by
  have hexponent : (significant (places + 1) n d).exponent = leadingExponentOfRatio n d - places := by
    show leadingExponentOfRatio n d - ((places + 1 : Nat) - 1) = _
    omega
  rcases leadingExponent_significant_cases hn hd places with he | ⟨he, hvalue⟩
  · rw [he, ← hexponent]
    exact isNearestMultiple_significant hd (places + 1)
  · -- A carry gives a power of ten, and half a unit of the last digit is less than half of the greater
    -- unit.
    have hhalf := abs_sub_significant hd (places + 1) (n := n)
    have hpow : (significant (places + 1) n d).value =
        (10 ^ places : ℕ) * 10 ^ (leadingExponentOfRatio n d + 1 - places : ℤ) := by
      rw [hvalue, Nat.cast_pow, Nat.cast_ofNat, ← zpow_natCast, ← zpow_add₀ (by norm_num)]
      congr 1
      omega
    have hunit : (10 : ℚ) ^ (leadingExponentOfRatio n d + 1 - places : ℤ) =
        10 * 10 ^ (significant (places + 1) n d).exponent := by
      rw [hexponent, ← zpow_one_add₀ (by norm_num)]
      congr 1
      omega
    have hpos : (0 : ℚ) < 10 ^ (significant (places + 1) n d).exponent := by positivity
    rw [hpow] at hhalf
    rw [he, hpow]
    refine isNearestMultiple_of_abs_sub_le (by linarith) fun h => ?_
    rw [h, hunit] at hhalf
    linarith

end

end DeskCalculator.Decimal
