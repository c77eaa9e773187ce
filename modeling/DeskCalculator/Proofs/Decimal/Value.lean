import DeskCalculator.Proofs.Binary64.Nearest

/-!
# Values of decimal numbers

A decimal number lies between two powers of ten, as its digits say, and is read as the double nearest
to it.
-/

namespace DeskCalculator

open Binary64

/-! ## Counts of digits -/

theorem lt_pow_length_toDigits (n : Nat) : n < 10 ^ (Nat.toDigits 10 n).length :=
  (Nat.length_toDigits_le_iff (by decide) Nat.length_toDigits_pos).mp (Nat.le_refl _)

theorem pow_length_toDigits_le {n : Nat} (h : n ≠ 0) : 10 ^ ((Nat.toDigits 10 n).length - 1) ≤ n := by
  by_contra hlt
  rcases Nat.eq_zero_or_pos ((Nat.toDigits 10 n).length - 1) with h0 | hpos
  · rw [h0, pow_zero] at hlt
    omega
  · have := (Nat.length_toDigits_le_iff (by decide) hpos).mpr (Nat.lt_of_not_le hlt)
    omega

namespace Decimal

/-! ## Values -/

def value (d : Decimal) : ℚ := d.digits * 10 ^ d.exponent

theorem value_nonneg (d : Decimal) : 0 ≤ d.value := by
  unfold value
  positivity

/-- The value as a quotient of natural numbers. -/
theorem value_eq_div (d : Decimal) :
    d.value = (d.digits * 10 ^ d.exponent.toNat : Nat) / (10 ^ (-d.exponent).toNat : Nat) := by
  have hten : (10 : ℚ) ≠ 0 := by norm_num
  have he : d.exponent = (d.exponent.toNat : ℤ) - ((-d.exponent).toNat : ℤ) := by omega
  rw [value, he, zpow_sub₀ hten, zpow_natCast, zpow_natCast]
  push_cast
  rw [← he, mul_div_assoc]

theorem pow_leadingExponent_le {d : Decimal} (h : d.digits ≠ 0) :
    (10 : ℚ) ^ d.leadingExponent ≤ d.value := by
  have hlen : ((Nat.toDigits 10 d.digits).length : ℤ) - 1 =
      ((Nat.toDigits 10 d.digits).length - 1 : Nat) := by
    have := @Nat.length_toDigits_pos 10 d.digits
    omega
  rw [leadingExponent, zpow_add₀ (by norm_num), hlen, zpow_natCast, value]
  refine mul_le_mul_of_nonneg_right ?_ (by positivity)
  exact_mod_cast pow_length_toDigits_le h

theorem lt_pow_leadingExponent (d : Decimal) : d.value < (10 : ℚ) ^ (d.leadingExponent + 1) := by
  rw [leadingExponent, add_right_comm, sub_add_cancel, zpow_add₀ (by norm_num), zpow_natCast, value]
  refine mul_lt_mul_of_pos_right ?_ (by positivity)
  exact_mod_cast lt_pow_length_toDigits d.digits

/-! ## The nearest double -/

theorem two_mul_pow_le_magnitude_one : 2 * (10 : ℚ) ^ (-400 : ℤ) ≤ magnitude 1 := by
  have hu : unitsOfBits 1 = 1 := rfl
  have hpow : 2 * 2 ^ 1074 ≤ 10 ^ 400 := by decide +kernel
  rw [magnitude, hu, unitsPerOne_eq, zpow_neg, mul_inv_le_iff₀ (by positivity), Nat.cast_one,
    one_div_mul_eq_div, le_div_iff₀ (by positivity)]
  exact_mod_cast hpow

theorem magnitude_infinity : magnitude infinity = 2 ^ 1024 := by
  have hi : infinity = 2046 * fractions + 2 ^ 52 := by decide
  rw [hi, magnitude_pow, unitsPerOne_eq, Nat.cast_pow, Nat.cast_ofNat, div_eq_iff (by positivity),
    ← pow_add]

theorem isNearest_bitsOfDecimal (d : Decimal) : IsNearest d.value (bitsOfDecimal d) := by
  unfold bitsOfDecimal
  dsimp only
  split_ifs with hlow hhigh
  · -- Nothing, or less than half of the smallest double.
    have hlt : 2 * d.value ≤ magnitude 1 := by
      rcases hlow with h0 | hlow
      · rw [value, h0, Nat.cast_zero, zero_mul, mul_zero]
        exact magnitude_nonneg 1
      · have hle : (10 : ℚ) ^ (d.leadingExponent + 1) ≤ 10 ^ (-400 : ℤ) :=
          zpow_le_zpow_right₀ (by norm_num) (by omega)
        linarith [d.lt_pow_leadingExponent, two_mul_pow_le_magnitude_one]
    exact isNearest_zero d.value_nonneg hlt
  · refine isNearest_infinity ?_
    have hpow : 2 ^ 1024 ≤ 10 ^ 400 := by decide +kernel
    have hle : (10 : ℚ) ^ (400 : ℤ) ≤ 10 ^ d.leadingExponent :=
      zpow_le_zpow_right₀ (by norm_num) hhigh.le
    calc magnitude infinity = 2 ^ 1024 := magnitude_infinity
      _ ≤ (10 : ℚ) ^ (400 : ℤ) := by exact_mod_cast hpow
      _ ≤ 10 ^ d.leadingExponent := hle
      _ ≤ d.value := pow_leadingExponent_le fun h0 => hlow (.inl h0)
  · have hu := cast_unitsPerOne_pos.ne'
    have hd : 0 < 10 ^ (-d.exponent).toNat := Nat.pow_pos (by decide)
    have := isNearest_nearestBits (n := d.digits * 10 ^ d.exponent.toNat * unitsPerOne) hd
    rwa [Nat.cast_mul, mul_div_right_comm, mul_div_cancel_right₀ _ hu, ← value_eq_div] at this

end Decimal

end DeskCalculator
