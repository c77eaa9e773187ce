import DeskCalculator.Display
import DeskCalculator.Proofs.Decimal.Layout
import DeskCalculator.Proofs.Decimal.Rounding
import DeskCalculator.Proofs.Decimal.Shortest

/-!
# What the display shows

A displayed text stands for one number: a whole number near the value, a number that reads back as
the value, or the value to twelve digits. Each of the three is as near to the value as its layout
allows.
-/

namespace DeskCalculator

open Binary64

theorem abs_sub_roundHalfUp {n d : Nat} (hd : 0 < d) : |(n : ℚ) / d - roundHalfUp n d| ≤ 1 / 2 := by
  have hd' : (0 : ℚ) < d := by exact_mod_cast hd
  have hlow : roundHalfUp n d * (2 * d) ≤ 2 * n + d := Nat.div_mul_le_self _ _
  have hhigh : 2 * n + d < (roundHalfUp n d + 1) * (2 * d) :=
    (Nat.lt_mul_div_succ _ (by omega)).trans_eq (Nat.mul_comm _ _)
  have hlow : (roundHalfUp n d : ℚ) * (2 * d) ≤ 2 * n + d := by exact_mod_cast hlow
  have hhigh : 2 * (n : ℚ) + d < (roundHalfUp n d + 1) * (2 * d) := by exact_mod_cast hhigh
  rw [abs_le]
  constructor
  · rw [le_sub_iff_add_le, le_div_iff₀ hd']
    linarith
  · rw [sub_le_iff_le_add, div_le_iff₀ hd']
    linarith

theorem cast_sub_add_sub (a b : Nat) : ((a - b + (b - a) : Nat) : ℚ) = |(a : ℚ) - b| := by
  rcases Nat.le_total a b with h | h
  · rw [Nat.sub_eq_zero_of_le h, Nat.zero_add, Nat.cast_sub h, abs_sub_comm, abs_of_nonneg]
    exact sub_nonneg.mpr (by exact_mod_cast h)
  · rw [Nat.sub_eq_zero_of_le h, Nat.add_zero, Nat.cast_sub h, abs_of_nonneg]
    exact sub_nonneg.mpr (by exact_mod_cast h)

namespace Display

/-! ## The tolerance -/

theorem tolerance_lt : magnitude toleranceBits < 1 / 10 ^ 12 := by
  have h : unitsOfBits toleranceBits * 10 ^ 12 < 1 * unitsPerOne := by decide +kernel
  rw [magnitude, div_lt_div_iff₀ cast_unitsPerOne_pos (by norm_num)]
  exact_mod_cast h

/-- To twelve digits the tolerance is a power of ten. -/
theorem lt_tolerance : ((10 ^ 12 : Nat) - 1 / 2 : ℚ) * 10 ^ (-24 : ℤ) < magnitude toleranceBits := by
  have h : (2 * 10 ^ 12 - 1) * unitsPerOne < unitsOfBits toleranceBits * (2 * 10 ^ 24) := by
    decide +kernel
  have hq : ((10 ^ 12 : Nat) - 1 / 2 : ℚ) * 10 ^ (-24 : ℤ) =
      (2 * 10 ^ 12 - 1 : Nat) / (2 * 10 ^ 24 : Nat) := by norm_num
  rw [hq, magnitude, div_lt_div_iff₀ (by norm_num) cast_unitsPerOne_pos]
  exact_mod_cast h

theorem tolerance_pos : 0 < magnitude toleranceBits := by
  rw [← magnitude_zero]
  exact magnitude_lt_iff.mpr (by decide)

/-- The number is nearer to a whole number than the tolerance. -/
def NearWhole (q : ℚ) : Prop := ∃ n : ℤ, |q - n| < magnitude toleranceBits

theorem nearWhole_neg {q : ℚ} : NearWhole (-q) ↔ NearWhole q := by
  have h : ∀ {q : ℚ}, NearWhole q → NearWhole (-q) := by
    rintro q ⟨n, hn⟩
    refine ⟨-n, ?_⟩
    rw [Int.cast_neg, ← neg_sub', abs_neg]
    exact hn
  exact ⟨fun hq => by simpa using h hq, h⟩

section

variable (x : Float)

theorem abs_sub_nearestWhole : |magnitude (magnitudeBits x) - nearestWhole x| ≤ 1 / 2 :=
  abs_sub_roundHalfUp unitsPerOne_pos

theorem isNearlyWhole_iff_lt :
    isNearlyWhole x = true ↔ |magnitude (magnitudeBits x) - nearestWhole x| <
      magnitude toleranceBits := by
  have hu := cast_unitsPerOne_pos
  have hdist :
      (distanceToWhole x : ℚ) / unitsPerOne = |magnitude (magnitudeBits x) - nearestWhole x| := by
    have hsub : magnitude (magnitudeBits x) - nearestWhole x =
        ((units x : ℚ) - (nearestWhole x * unitsPerOne : Nat)) / unitsPerOne := by
      rw [Nat.cast_mul, sub_div, mul_div_cancel_right₀ _ hu.ne', magnitude, units]
    rw [hsub, abs_div, abs_of_pos hu, distanceToWhole, cast_sub_add_sub]
  rw [isNearlyWhole, decide_eq_true_iff, ← hdist, magnitude, div_lt_div_iff_of_pos_right hu, Nat.cast_lt]

/-- The nearest whole number stands for all. -/
theorem isNearlyWhole_iff_magnitude :
    isNearlyWhole x = true ↔ NearWhole (magnitude (magnitudeBits x)) := by
  rw [isNearlyWhole_iff_lt]
  refine ⟨fun h => ⟨nearestWhole x, by exact_mod_cast h⟩, ?_⟩
  rintro ⟨n, hn⟩
  have hhalf := abs_sub_nearestWhole x
  have hsmall : (1 : ℚ) / 10 ^ 12 < 1 / 2 := by norm_num
  have htri := abs_sub_le (n : ℚ) (magnitude (magnitudeBits x)) (nearestWhole x)
  rw [abs_sub_comm (n : ℚ) (magnitude _)] at htri
  have hlt : |(n : ℚ) - nearestWhole x| < 1 := by linarith [tolerance_lt]
  have hn' : n = nearestWhole x := by
    have : |n - nearestWhole x| < 1 := by exact_mod_cast hlt
    exact sub_eq_zero.mp (Int.abs_lt_one_iff.mp this)
  rw [hn'] at hn
  exact_mod_cast hn

theorem isNearlyWhole_iff : isNearlyWhole x = true ↔ NearWhole (value x) := by
  rw [isNearlyWhole_iff_magnitude, value]
  split
  · rw [neg_one_mul, nearWhole_neg]
  · rw [one_mul]

end

/-! ## Large values -/

theorem plainLimit_eq : (plainLimit : ℚ) = 10 ^ 21 := by
  rw [plainLimit, Nat.pow_eq]
  norm_num

/-- The bits of `10 ^ 21`. -/
def plainLimitBits : Nat := 0x444b1ae4d6e2ef50

theorem magnitude_plainLimitBits : magnitude plainLimitBits = 10 ^ 21 := by
  have h : unitsOfBits plainLimitBits = 10 ^ 21 * unitsPerOne := by decide +kernel
  rw [magnitude_eq_natCast h]
  norm_num

theorem magnitude_lt_plainLimit {bits : Nat} (h : bits < plainLimitBits) :
    magnitude bits < 10 ^ 21 - 1 := by
  have hpred : unitsOfBits (plainLimitBits - 1) < (10 ^ 21 - 1) * unitsPerOne := by decide +kernel
  refine (magnitude_le_iff.mpr (Nat.le_pred_of_lt h)).trans_lt ?_
  have hlimit : ((10 ^ 21 - 1 : Nat) : ℚ) = 10 ^ 21 - 1 := by norm_num
  rw [magnitude, div_lt_iff₀ cast_unitsPerOne_pos, ← hlimit, ← Nat.cast_mul]
  exact Nat.cast_lt.mpr hpred

/-- From `2 ^ 52` on every double is a whole number. -/
theorem nearWhole_of_le {bits : Nat} (h : 2 ^ 52 ≤ magnitude bits) : NearWhole (magnitude bits) := by
  have hu := cast_unitsPerOne_pos
  have hp := unitsPerOne_eq
  generalize 1074 = p at hp
  have hle : 2 ^ (p + 52) ≤ unitsOfBits bits := by
    rw [Nat.pow_add, ← hp, Nat.mul_comm, ← @Nat.cast_le ℚ, Nat.cast_mul, Nat.cast_pow, Nat.cast_ofNat]
    exact (le_div_iff₀ hu).mp h
  obtain ⟨n, hn⟩ := pow_dvd_unitsOfBits hle
  refine ⟨n, ?_⟩
  rw [magnitude, hn, ← hp, Nat.cast_mul, mul_div_cancel_left₀ _ hu.ne', Int.cast_natCast, sub_self,
    abs_zero]
  exact tolerance_pos

section

variable {x : Float}

theorem nearestWhole_lt_plainLimit_iff (h : isNearlyWhole x = true) :
    nearestWhole x < plainLimit ↔ magnitude (magnitudeBits x) < 10 ^ 21 := by
  have hdist := abs_lt.mp ((isNearlyWhole_iff_lt x).mp h)
  have hsmall : (1 : ℚ) / 10 ^ 12 < 1 := by norm_num
  have htol := tolerance_lt
  constructor
  · intro hlt
    have hle : ((nearestWhole x + 1 : Nat) : ℚ) ≤ plainLimit := by exact_mod_cast hlt
    rw [plainLimit_eq, Nat.cast_add, Nat.cast_one] at hle
    linarith
  · intro hlt
    rw [← magnitude_plainLimitBits, magnitude_lt_iff] at hlt
    have hm := magnitude_lt_plainLimit hlt
    have hq : (nearestWhole x : ℚ) < plainLimit := by
      rw [plainLimit_eq]
      linarith
    exact_mod_cast hq

/-! ## The number that is shown -/

/-- What the digits of a value stand for, without its sign. -/
def shown (x : Float) : ℚ :=
  if isNearlyWhole x then
    if nearestWhole x < plainLimit then nearestWhole x else (Decimal.shortest (magnitudeBits x)).value
  else (Decimal.significant places (units x) unitsPerOne).value

theorem writes_layout (d : Decimal) : Decimal.Writes (layout d) d.value := by
  unfold layout
  split
  · exact d.writes_plain
  · exact d.writes_scientific

theorem writes_magnitudeText (x : Float) : Decimal.Writes (magnitudeText x) (shown x) := by
  unfold magnitudeText shown
  dsimp only
  split_ifs
  · exact Decimal.writes_toDigits _
  · exact Decimal.writes_scientific _
  · exact writes_layout _

theorem shown_of_whole (h : isNearlyWhole x = true) (hlt : magnitude (magnitudeBits x) < 10 ^ 21) :
    shown x = nearestWhole x := by
  rw [shown, if_pos h, if_pos ((nearestWhole_lt_plainLimit_iff h).mpr hlt)]

theorem shown_of_large (h : 10 ^ 21 ≤ magnitude (magnitudeBits x)) :
    shown x = (Decimal.shortest (magnitudeBits x)).value := by
  have hwhole : isNearlyWhole x = true :=
    (isNearlyWhole_iff_magnitude x).mpr (nearWhole_of_le (le_trans (by norm_num) h))
  rw [shown, if_pos hwhole, if_neg]
  rw [nearestWhole_lt_plainLimit_iff hwhole]
  exact not_lt.mpr h

theorem shown_of_fraction (h : ¬ isNearlyWhole x = true) :
    shown x = (Decimal.significant places (units x) unitsPerOne).value := by
  rw [shown, if_neg h]

/-- A large value reads back. -/
theorem isNearest_shown_of_large (h : 10 ^ 21 ≤ magnitude (magnitudeBits x))
    (htop : magnitudeBits x < infinity) :
    IsNearest (shown x) (magnitudeBits x) := by
  have hnear := Decimal.isNearest_bitsOfDecimal (Decimal.shortest (magnitudeBits x))
  rwa [Decimal.bitsOfDecimal_shortest htop.le, ← shown_of_large h] at hnear

/-! ## How far it is from the value -/

theorem abs_sub_shown_of_whole (h : isNearlyWhole x = true)
    (hlt : magnitude (magnitudeBits x) < 10 ^ 21) :
    |magnitude (magnitudeBits x) - shown x| < 1 / 10 ^ 12 := by
  rw [shown_of_whole h hlt]
  exact ((isNearlyWhole_iff_lt x).mp h).trans tolerance_lt

theorem abs_sub_shown_of_large (h : 10 ^ 21 ≤ magnitude (magnitudeBits x))
    (htop : magnitudeBits x < infinity) :
    |magnitude (magnitudeBits x) - shown x| ≤ 5 / 10 ^ 12 * magnitude (magnitudeBits x) := by
  have hlow : plainLimitBits ≤ magnitudeBits x := by
    rwa [← magnitude_plainLimitBits, magnitude_le_iff] at h
  have hnear := (isNearest_shown_of_large h htop).abs_sub_le (le_trans (by decide) hlow) htop
  rw [abs_sub_comm]
  refine hnear.trans ?_
  have hpos := magnitude_nonneg (magnitudeBits x)
  linarith

variable (hlow : toleranceBits ≤ magnitudeBits x)
include hlow

theorem units_pos : 0 < units x := by
  have h0 : unitsOfBits 0 = 0 := rfl
  rw [units, ← h0]
  exact strictMono_unitsOfBits (Nat.lt_of_lt_of_le (by decide) hlow)

theorem abs_sub_shown_of_fraction (h : ¬ isNearlyWhole x = true) :
    |magnitude (magnitudeBits x) - shown x| ≤ 5 / 10 ^ 12 * magnitude (magnitudeBits x) := by
  have hle := @Decimal.abs_sub_significant_le (units x) unitsPerOne unitsPerOne_pos 11 (units_pos hlow)
  have hm : (units x : ℚ) / unitsPerOne = magnitude (magnitudeBits x) := rfl
  rw [hm] at hle
  rw [shown_of_fraction h]
  refine hle.trans (le_of_eq ?_)
  ring

/-- A value that is not nearly whole is small. -/
theorem shown_le (hlt : magnitude (magnitudeBits x) < 10 ^ 21) : shown x ≤ 10 ^ 21 := by
  by_cases h : isNearlyWhole x = true
  · rw [shown_of_whole h hlt, ← plainLimit_eq]
    exact_mod_cast ((nearestWhole_lt_plainLimit_iff h).mpr hlt).le
  · have hsmall : magnitude (magnitudeBits x) < 2 ^ 52 :=
      not_le.mp fun hle => h ((isNearlyWhole_iff_magnitude x).mpr (nearWhole_of_le hle))
    have hle := (abs_le.mp (abs_sub_shown_of_fraction hlow h)).1
    linarith

theorem tolerance_le_magnitude : magnitude toleranceBits ≤ magnitude (magnitudeBits x) :=
  magnitude_le_iff.mpr hlow

theorem nearestWhole_pos (h : isNearlyWhole x = true) : 1 ≤ nearestWhole x := by
  by_contra h0
  have hlt := (isNearlyWhole_iff_lt x).mp h
  rw [Nat.lt_one_iff.mp (Nat.lt_of_not_le h0), Nat.cast_zero, sub_zero,
    abs_of_nonneg (magnitude_nonneg _)] at hlt
  exact absurd (tolerance_le_magnitude hlow) (not_le.mpr hlt)

/-- What lies just below `10 ^ -12` is rounded up to it. -/
theorem tolerance_le_shown_of_fraction (h : ¬ isNearlyWhole x = true) :
    magnitude toleranceBits ≤ shown x := by
  have hm : (units x : ℚ) / unitsPerOne = magnitude (magnitudeBits x) := rfl
  rw [shown_of_fraction h]
  by_cases hlead : -12 ≤ Decimal.leadingExponentOfRatio (units x) unitsPerOne
  · calc magnitude toleranceBits ≤ 10 ^ (-12 : ℤ) := tolerance_lt.le.trans (by norm_num)
      _ ≤ 10 ^ Decimal.leadingExponentOfRatio (units x) unitsPerOne :=
        zpow_le_zpow_right₀ (by norm_num) hlead
      _ ≤ (Decimal.significant places (units x) unitsPerOne).value :=
        Decimal.pow_leadingExponentOfRatio_le_significant unitsPerOne_pos 11 (units_pos hlow)
  · have hlt := Decimal.lt_pow_leadingExponentOfRatio (units_pos hlow) unitsPerOne_pos
    rw [hm] at hlt
    have hmin :
        (10 : ℚ) ^ (-13 : ℤ) < 10 ^ (Decimal.leadingExponentOfRatio (units x) unitsPerOne + 1) := by
      have : (10 : ℚ) ^ (-13 : ℤ) < ((10 ^ 12 : Nat) - 1 / 2) * 10 ^ (-24 : ℤ) := by norm_num
      exact this.trans (lt_tolerance.trans_le ((tolerance_le_magnitude hlow).trans hlt.le))
    have hexp := (zpow_lt_zpow_iff_right₀ (by norm_num)).mp hmin
    have he : (Decimal.significant places (units x) unitsPerOne).exponent = -24 := by
      show Decimal.leadingExponentOfRatio (units x) unitsPerOne - ((12 : Nat) - 1) = -24
      omega
    have hround := @Decimal.mul_pow_le_significant (units x) unitsPerOne unitsPerOne_pos places (10 ^ 12)
    rw [he, hm] at hround
    refine le_trans ?_ (hround (lt_tolerance.trans_le (tolerance_le_magnitude hlow)))
    exact tolerance_lt.le.trans (by norm_num)

/-- No value of a result is shown as zero. -/
theorem tolerance_le_shown (htop : magnitudeBits x < infinity) : magnitude toleranceBits ≤ shown x := by
  have hsmall : (1 : ℚ) / 10 ^ 12 ≤ 1 := by norm_num
  by_cases h : isNearlyWhole x = true
  · rcases lt_or_ge (magnitude (magnitudeBits x)) (10 ^ 21) with hlt | hge
    · have hone : (1 : ℚ) ≤ nearestWhole x := by exact_mod_cast nearestWhole_pos hlow h
      rw [shown_of_whole h hlt]
      linarith [tolerance_lt]
    · have hle := (abs_le.mp (abs_sub_shown_of_large hge htop)).2
      linarith [tolerance_lt]
  · exact tolerance_le_shown_of_fraction hlow h

/-- The nearest double is a result again. -/
theorem bits_of_isNearest_shown (htop : magnitudeBits x < infinity) {bits : Nat}
    (hb : IsNearest (shown x) bits) :
    toleranceBits ≤ bits ∧ bits < infinity := by
  refine ⟨hb.le_of_magnitude_le (by decide) (tolerance_le_shown hlow htop), ?_⟩
  rcases lt_or_ge (magnitude (magnitudeBits x)) (10 ^ 21) with hlt | hge
  · have hle : shown x ≤ magnitude plainLimitBits := magnitude_plainLimitBits ▸ shown_le hlow hlt
    exact (hb.le_of_le_magnitude (by decide) hle).trans_lt (by decide)
  · rw [(isNearest_shown_of_large hge htop).unique hb]
    exact htop

end

end Display

end DeskCalculator
