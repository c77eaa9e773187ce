import DeskCalculator.Proofs.Decimal.Value

/-!
# Significant digits

A quotient lies between two powers of ten, as its leading exponent says. With a count of significant
digits it keeps all these digits and moves by at most half a unit of the last one.
-/

namespace DeskCalculator.Decimal

open Binary64

/-! ## The leading exponent -/

section

variable {n d : Nat} (hn : 0 < n) (hd : 0 < d)
include hn hd

theorem pow_leadingExponentOfRatio_le : (10 : ℚ) ^ leadingExponentOfRatio n d ≤ n / d := by
  have hn' : (0 : ℚ) < n := by exact_mod_cast hn
  have hd' : (0 : ℚ) < d := by exact_mod_cast hd
  unfold leadingExponentOfRatio
  split_ifs with h
  · have hlen : ((Nat.toDigits 10 (n / d)).length : ℤ) - 1 =
        ((Nat.toDigits 10 (n / d)).length - 1 : Nat) := by
      have := @Nat.length_toDigits_pos 10 (n / d)
      omega
    have hle := pow_length_toDigits_le (Nat.div_pos h hd).ne'
    rw [hlen, zpow_natCast, le_div_iff₀ hd']
    exact_mod_cast (Nat.le_div_iff_mul_le hd).mp hle
  · have hlt := (Nat.div_lt_iff_lt_mul hn).mp (lt_pow_length_toDigits ((d - 1) / n))
    rw [zpow_neg, zpow_natCast, inv_le_comm₀ (by positivity) (by positivity), inv_div, div_le_iff₀ hn']
    exact_mod_cast (by omega : d ≤ 10 ^ (Nat.toDigits 10 ((d - 1) / n)).length * n)

theorem lt_pow_leadingExponentOfRatio : (n : ℚ) / d < 10 ^ (leadingExponentOfRatio n d + 1) := by
  have hn' : (0 : ℚ) < n := by exact_mod_cast hn
  have hd' : (0 : ℚ) < d := by exact_mod_cast hd
  unfold leadingExponentOfRatio
  split_ifs with h
  · have hlt := (Nat.div_lt_iff_lt_mul hd).mp (lt_pow_length_toDigits (n / d))
    rw [sub_add_cancel, zpow_natCast, div_lt_iff₀ hd']
    exact_mod_cast hlt
  · have hlen : -((Nat.toDigits 10 ((d - 1) / n)).length : ℤ) + 1 =
        -((Nat.toDigits 10 ((d - 1) / n)).length - 1 : Nat) := by
      have := @Nat.length_toDigits_pos 10 ((d - 1) / n)
      omega
    have hle := (Nat.le_div_iff_mul_le hn).mp
      (pow_length_toDigits_le (Nat.div_pos (by omega : n ≤ d - 1) hn).ne')
    rw [hlen, zpow_neg, zpow_natCast, lt_inv_comm₀ (by positivity) (by positivity), inv_div,
      lt_div_iff₀ hn']
    exact_mod_cast (by omega : 10 ^ ((Nat.toDigits 10 ((d - 1) / n)).length - 1) * n < d)

end

/-! ## Units of a power of ten -/

theorem inUnits_snd_pos {n d : Nat} (hd : 0 < d) (k : ℤ) : 0 < (inUnits n d k).2 :=
  Nat.mul_pos hd (Nat.pow_pos (by decide))

theorem inUnits_spec {n d : Nat} (k : ℤ) :
    ((inUnits n d k).1 : ℚ) / (inUnits n d k).2 = n / d / 10 ^ k := by
  have hten : (10 : ℚ) ≠ 0 := by norm_num
  have hk : k = (k.toNat : ℤ) - ((-k).toNat : ℤ) := by omega
  have hpow : (10 : ℚ) ^ k = 10 ^ k.toNat / 10 ^ (-k).toNat := by
    conv => lhs; rw [hk]
    rw [zpow_sub₀ hten, zpow_natCast, zpow_natCast]
  rw [inUnits, hpow, Nat.pow_eq, Nat.pow_eq]
  push_cast
  rw [div_div_eq_mul_div, div_mul_eq_mul_div, div_div]

/-! ## Rounding -/

section

variable {n d : Nat} (hd : 0 < d) (places : Nat)
include hd

theorem significant_spec :
    ∃ n' d' : Nat, 0 < d' ∧ (significant places n d).digits = roundHalfEven n' d' ∧
    (n' : ℚ) / d' = n / d / 10 ^ (significant places n d).exponent :=
  ⟨_, _, inUnits_snd_pos hd _, rfl, inUnits_spec _⟩

/-- At most half a unit of the last digit. -/
theorem abs_sub_significant :
    |(n : ℚ) / d - (significant places n d).value| ≤ 10 ^ (significant places n d).exponent / 2 := by
  obtain ⟨n', d', hd', hdigits, hx⟩ := @significant_spec n d hd places
  have hp : (0 : ℚ) < 10 ^ (significant places n d).exponent := by positivity
  have hround := (@abs_sub_roundHalfEven n' d' hd').1
  rw [value, hdigits, ← div_mul_cancel₀ ((n : ℚ) / d) hp.ne', ← hx, ← sub_mul, abs_mul, abs_of_pos hp]
  linarith [mul_le_mul_of_nonneg_right hround hp.le]

/-- Less than half a unit below a count of units, the number is rounded up to it. -/
theorem mul_pow_le_significant {m : Nat}
    (h : ((m : ℚ) - 1 / 2) * 10 ^ (significant places n d).exponent < n / d) :
    (m : ℚ) * 10 ^ (significant places n d).exponent ≤ (significant places n d).value := by
  have hp : (0 : ℚ) < 10 ^ (significant places n d).exponent := by positivity
  have hround := (abs_le.mp (@abs_sub_significant n d hd places)).2
  rw [value] at hround ⊢
  refine mul_le_mul_of_nonneg_right ?_ hp.le
  have hlt : (m : ℚ) < (significant places n d).digits + 1 := lt_of_mul_lt_mul_right (by linarith) hp.le
  exact_mod_cast Nat.lt_succ_iff.mp (by exact_mod_cast hlt)

variable (hn : 0 < n)
include hn

theorem pow_leadingExponentOfRatio_le_significant :
    (10 : ℚ) ^ leadingExponentOfRatio n d ≤ (significant (places + 1) n d).value := by
  obtain ⟨n', d', hd', hdigits, hx⟩ := @significant_spec n d hd (places + 1)
  have hp : (0 : ℚ) < 10 ^ (significant (places + 1) n d).exponent := by positivity
  have hlead : leadingExponentOfRatio n d = (places : ℤ) + (significant (places + 1) n d).exponent := by
    have : (significant (places + 1) n d).exponent =
        leadingExponentOfRatio n d - ((places + 1 : Nat) - 1) := rfl
    omega
  have hpow : (10 : ℚ) ^ leadingExponentOfRatio n d =
      10 ^ places * 10 ^ (significant (places + 1) n d).exponent := by
    rw [hlead, zpow_add₀ (by norm_num), zpow_natCast]
  have hle := pow_leadingExponentOfRatio_le hn hd
  have hdigit : 10 ^ places ≤ roundHalfEven n' d' := by
    refine le_roundHalfEven hd' ?_
    rw [hx, le_div_iff₀ hp, Nat.cast_pow, Nat.cast_ofNat, ← hpow]
    exact hle
  rw [hpow, value, hdigits]
  exact mul_le_mul_of_nonneg_right (by exact_mod_cast hdigit) hp.le

/-- Half a unit of the last digit against the number itself. -/
theorem abs_sub_significant_le :
    |(n : ℚ) / d - (significant (places + 1) n d).value| ≤ (n : ℚ) / d / (2 * 10 ^ places) := by
  have hlast : (10 : ℚ) ^ (significant (places + 1) n d).exponent =
      10 ^ leadingExponentOfRatio n d / 10 ^ places := by
    have : (significant (places + 1) n d).exponent = leadingExponentOfRatio n d - places := by
      show leadingExponentOfRatio n d - ((places + 1 : Nat) - 1) = _
      omega
    rw [this, zpow_sub₀ (by norm_num), zpow_natCast]
  calc |(n : ℚ) / d - (significant (places + 1) n d).value|
      ≤ 10 ^ (significant (places + 1) n d).exponent / 2 := abs_sub_significant hd (places + 1)
    _ = 10 ^ leadingExponentOfRatio n d / (2 * 10 ^ places) := by
        rw [hlast, div_div, mul_comm (10 ^ places)]
    _ ≤ (n : ℚ) / d / (2 * 10 ^ places) :=
        div_le_div_of_nonneg_right (pow_leadingExponentOfRatio_le hn hd) (by positivity)

end

end DeskCalculator.Decimal
