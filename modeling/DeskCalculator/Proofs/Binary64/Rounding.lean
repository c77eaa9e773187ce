import DeskCalculator.Proofs.Binary64.Nearest

/-!
# Rounding to a double

The arithmetic of doubles gives a mantissa and an exponent, shifts the mantissa to its place and rounds
what the shift drops, a half going to the even neighbour. The result is the double nearest to the exact
number.
-/

namespace DeskCalculator.Binary64

open Float.Model Float.Model.UnpackedFloat

/-! ## Shifts -/

/-- The bits that a shift drops are compared with a half, and with nothing. -/
theorem shiftRight_exact (m s : Nat) : ExtendedMantissa.ofMantissaAndAccuracy m .exact >>> s =
    ⟨m / 2 ^ s, decide (2 ^ s ≤ 2 * (m % 2 ^ s)),
      decide (2 * (m % 2 ^ s) ≠ 0 ∧ 2 * (m % 2 ^ s) ≠ 2 ^ s)⟩ := by
  induction s with
  | zero =>
      simp [ExtendedMantissa.ofMantissaAndAccuracy, HShiftRight.hShiftRight, Nat.repeat, Nat.mod_one]
  | succ s ih =>
      have hstep : ExtendedMantissa.ofMantissaAndAccuracy m .exact >>> (s + 1) =
          (ExtendedMantissa.ofMantissaAndAccuracy m .exact >>> s).shiftRightOne := rfl
      have hlt : m % 2 ^ s < 2 ^ s := Nat.mod_lt m (Nat.two_pow_pos s)
      have hbit : m / 2 ^ s % 2 = 0 ∨ m / 2 ^ s % 2 = 1 := Nat.mod_two_eq_zero_or_one _
      have hdiv : m / 2 ^ (s + 1) = m / 2 ^ s / 2 := by rw [Nat.pow_succ, Nat.div_div_eq_div_mul]
      rw [hstep, ih, hdiv, Nat.mod_pow_succ, ExtendedMantissa.shiftRightOne]
      generalize m / 2 ^ s = q at hbit
      generalize m % 2 ^ s = r at hlt
      rw [Nat.pow_succ]
      generalize 2 ^ s = p at hlt
      simp only [ExtendedMantissa.mk.injEq, true_and]
      rcases hbit with h | h <;> rw [h] <;> constructor <;> rw [Bool.eq_iff_iff] <;> simp <;> omega

/-- Of an exact mantissa the shift keeps the nearest one. -/
theorem roundedMantissa_shiftRight (m s : Nat) :
    (ExtendedMantissa.ofMantissaAndAccuracy m .exact >>> s).roundedMantissa =
      roundHalfEven m (2 ^ s) := by
  have hpos : 0 < 2 ^ s := Nat.two_pow_pos s
  rw [shiftRight_exact, roundHalfEven]
  generalize m % 2 ^ s = r
  generalize m / 2 ^ s = q
  generalize 2 ^ s = p at hpos
  split_ifs with hlow hhigh
  · have hround : decide (p ≤ 2 * r) = false := decide_eq_false (by omega)
    rw [hround]
    cases decide (2 * r ≠ 0 ∧ 2 * r ≠ p) <;> rfl
  · have hround : decide (p ≤ 2 * r) = true := decide_eq_true hhigh.le
    have hsticky : decide (2 * r ≠ 0 ∧ 2 * r ≠ p) = true := decide_eq_true (by omega)
    rw [hround, hsticky]
    rfl
  · have hround : decide (p ≤ 2 * r) = true := decide_eq_true (by omega)
    have hsticky : decide (2 * r ≠ 0 ∧ 2 * r ≠ p) = false := decide_eq_false (by omega)
    rw [hround, hsticky]
    rfl

theorem roundHalfEven_mul_right {k : Nat} (hk : 0 < k) (n d : Nat) :
    roundHalfEven (n * k) (d * k) = roundHalfEven n d := by
  have hlt (a b : Nat) : a * k < b * k ↔ a < b := Nat.mul_lt_mul_right hk
  simp only [roundHalfEven, Nat.mul_div_mul_right n d hk, Nat.mul_mod_mul_right, ← Nat.mul_assoc, hlt]

/-! ## Packed doubles -/

section

variable {negative : Bool} {width count : Nat}

theorem ofModel_pack {x : Float} {u : UnpackedFloat} (h : x.toModel.unpack = u) :
    Float.ofModel (Float.Model.pack u) = x := by
  rw [← h, pack_unpack]

/-- A count of steps of the width that belongs to it is packed as the bits of a double, or beyond the
largest one as infinity. -/
theorem pack_finite (hc : count < 2 ^ 53) (hw : width = 0 ∨ 2 ^ 52 ≤ count) (hpos : 0 < count) :
    Float.ofModel (Float.Model.pack (.finite (sign negative) count (width - 1074) hpos)) =
      ofBits negative (min infinity (width * fractions + count)) := by
  have hf := fractions_eq
  have hi := infinity_eq
  by_cases htop : 2046 ≤ width
  · have hmin : min infinity (width * fractions + count) = infinity := by
      rw [hf, hi]
      omega
    have hbiased : 2 ^ Format.binary64.exponentBits ≤
        ((width : Int) - 1074 + Format.binary64.exponentBias +
          Format.binary64.mantissaBitsWithoutImplicit).toNat + 1 := by
      show 2048 ≤ ((width : Int) - 1074 + 1023 + 52).toNat + 1
      omega
    have hpack : UnpackedFloat.pack Format.binary64 (.finite (sign negative) count (width - 1074) hpos) =
        UnpackedFloat.pack Format.binary64 (.infinity (sign negative)) := by
      simp only [UnpackedFloat.pack, if_pos hbiased]
    simp only [Float.Model.pack, hpack]
    rw [hmin]
    exact ofModel_pack (by rw [unpack_cases le_rfl, if_pos rfl])
  · have hle : width * fractions + count < infinity := by
      rw [hf, hi]
      omega
    rw [min_eq_right hle.le]
    refine ofModel_pack ?_
    have h0 : width * fractions + count ≠ 0 := by omega
    rw [unpack_cases hle.le, if_neg hle.ne, dif_neg h0]
    split
    · rename_i hlow
      obtain rfl : width = 0 := by
        rw [hf] at hlow
        omega
      simp
    · rename_i hhigh
      have hmod : fractions + (width * fractions + count) % fractions = count := by
        rw [hf] at hhigh ⊢
        omega
      have hdiv : ((width * fractions + count) / fractions : Nat) - (1075 : Int) = width - 1074 := by
        rw [hf] at hhigh ⊢
        omega
      simp only [hmod, hdiv]

end

/-! ## Rounding an exact number -/

theorem widthOf_eq {n d width : Nat} (hd : 0 < d) (hn : n < 2 ^ (width + 53) * d)
    (hw : width = 0 ∨ 2 ^ (width + 52) * d ≤ n) : widthOf n d = width := by
  have hlt : n / d < 2 ^ (width + 53) := (Nat.div_lt_iff_lt_mul hd).mpr hn
  unfold widthOf
  rcases hw with rfl | hw
  · by_cases h0 : n / d = 0
    · rw [h0, Nat.log2_zero]
    · have : (n / d).log2 < 53 := (Nat.log2_lt h0).mpr hlt
      omega
  · have hle : 2 ^ (width + 52) ≤ n / d := (Nat.le_div_iff_mul_le hd).mpr hw
    have hne : n / d ≠ 0 := ((Nat.two_pow_pos _).trans_le hle).ne'
    have hlog : (n / d).log2 = width + 52 := (Nat.log2_eq_iff hne).mpr ⟨hle, hlt⟩
    omega

/-- A shift by `s` places leaves as many digits of the mantissa as steps of the width are counted with. -/
structure ShiftsTo (m : Nat) (e : Int) (s width : Nat) : Prop where
  place : e + s = width - 1074
  lt : m < 2 ^ (53 + s)
  le : width = 0 ∨ 2 ^ (52 + s) ≤ m

section

variable {negative : Bool} {m s width : Nat} {e : Int}

theorem exists_shiftsTo (hm : 0 < m) (he : e ≤ Format.binary64.targetExponent (totalExponent m e)) :
    ∃ s width, ShiftsTo m e s width := by
  change e ≤ max ((m.log2 : Int) + 1 + e - 53) (-1074) at he
  refine ⟨(max ((m.log2 : Int) + 1 + e - 53) (-1074) - e).toNat,
    (max ((m.log2 : Int) + 1 + e - 53) (-1074) + 1074).toNat, by omega,
    (Nat.log2_lt hm.ne').mp (by omega), ?_⟩
  rcases le_total ((m.log2 : Int) + 1 + e - 53) (-1074) with h | h
  · exact .inl (by omega)
  · exact .inr ((Nat.le_log2 hm.ne').mp (by omega))

namespace ShiftsTo

theorem targetExponent_eq (h : ShiftsTo m e s width) (hm : 0 < m) :
    Format.binary64.targetExponent (totalExponent m e) = width - 1074 := by
  have hplace := h.place
  have hup : m.log2 < 53 + s := (Nat.log2_lt hm.ne').mpr h.lt
  show max ((m.log2 : Int) + 1 + e - 53) (-1074) = width - 1074
  rcases h.le with rfl | hle
  · omega
  · have hdown : 52 + s ≤ m.log2 := (Nat.le_log2 hm.ne').mpr hle
    omega

theorem shiftToTargetExponent_eq (h : ShiftsTo m e s width) (hm : 0 < m) :
    shiftToTargetExponent Format.binary64 m e .exact =
      (ExtendedMantissa.ofMantissaAndAccuracy m .exact >>> s, (width : Int) - 1074) := by
  have hplace := h.place
  have hshift : ((width : Int) - 1074 - e).toNat = s := by omega
  simp only [shiftToTargetExponent, shiftToExponent, h.targetExponent_eq hm, hshift, hplace]

/-- What is left is a full count of steps, or the carry beyond one. -/
theorem roundHalfEven_bounds (h : ShiftsTo m e s width) :
    roundHalfEven m (2 ^ s) ≤ 2 ^ 53 ∧ (width = 0 ∨ 2 ^ 52 ≤ roundHalfEven m (2 ^ s)) := by
  have hpos : 0 < 2 ^ s := Nat.two_pow_pos s
  constructor
  · apply roundHalfEven_le hpos
    rw [div_le_iff₀ (by exact_mod_cast hpos), ← Nat.cast_mul, ← Nat.pow_add]
    exact_mod_cast h.lt.le
  · apply h.le.imp id
    intro hle
    apply le_roundHalfEven hpos
    rw [le_div_iff₀ (by exact_mod_cast hpos), ← Nat.cast_mul, ← Nat.pow_add]
    exact_mod_cast hle

/-- The count of steps is that of the nearest double. -/
theorem isNearest (h : ShiftsTo m e s width) :
    IsNearest (m * 2 ^ e) (min infinity (width * fractions + roundHalfEven m (2 ^ s))) := by
  have hplace := h.place
  obtain ⟨a, b, hab⟩ : ∃ a b : Nat, e + 1074 + b = a := ⟨(e + 1074).toNat, (-(e + 1074)).toNat, by omega⟩
  have hsum : s + a = width + b := by omega
  have hb : 0 < 2 ^ b := Nat.two_pow_pos b
  have hpow (c : Nat) : 2 ^ (width + c) * 2 ^ b = 2 ^ (c + s) * 2 ^ a := by
    rw [← Nat.pow_add, ← Nat.pow_add]
    congr 1
    omega
  have hwidth : widthOf (m * 2 ^ a) (2 ^ b) = width := by
    apply widthOf_eq hb
    · rw [hpow]
      exact Nat.mul_lt_mul_of_pos_right h.lt (Nat.two_pow_pos a)
    · apply h.le.imp id
      intro hle
      rw [hpow]
      exact Nat.mul_le_mul_right _ hle
  have hcount : roundHalfEven (m * 2 ^ a) (2 ^ b * 2 ^ width) = roundHalfEven m (2 ^ s) := by
    rw [← Nat.pow_add, Nat.add_comm, ← hsum, Nat.pow_add, roundHalfEven_mul_right (Nat.two_pow_pos a)]
  have hbits :
      nearestBits (m * 2 ^ a) (2 ^ b) = min infinity (width * fractions + roundHalfEven m (2 ^ s)) := by
    rw [← hcount, ← hwidth]
    rfl
  have hvalue : ((m * 2 ^ a : Nat) : ℚ) / (2 ^ b : Nat) / unitsPerOne = m * 2 ^ e := by
    have he : e = (a : Int) - b - (1074 : Nat) := by
      push_cast
      omega
    rw [unitsPerOne_eq, he, zpow_sub₀ two_ne_zero, zpow_sub₀ two_ne_zero, zpow_natCast, zpow_natCast,
      zpow_natCast]
    simp only [Nat.cast_mul, Nat.cast_pow, Nat.cast_ofNat, mul_div_assoc]
  rw [← hbits, ← hvalue]
  exact isNearest_nearestBits hb

end ShiftsTo

/-- What is left of a mantissa is a finite number, or nothing. -/
def ofShifted (s : Sign) (shifted : ExtendedMantissa × Int) : UnpackedFloat :=
  if h : shifted.1.mantissa = 0 then .zero s
  else .finite s shifted.1.mantissa shifted.2 (Nat.pos_of_ne_zero h)

/-- A rounded count that has become a power of two too long is shifted once more. -/
theorem ofModel_ofShifted {count : Nat} (hle : count ≤ 2 ^ 53) (hge : width = 0 ∨ 2 ^ 52 ≤ count) :
    Float.ofModel (Float.Model.pack (ofShifted (sign negative)
      (shiftToTargetExponent Format.binary64 count (width - 1074) .exact))) =
      ofBits negative (min infinity (width * fractions + count)) := by
  have hf := fractions_eq
  rcases Nat.eq_zero_or_pos count with rfl | hpos
  · obtain rfl : width = 0 := by omega
    exact ofModel_pack (unpack_cases (Nat.zero_le _))
  rcases hle.lt_or_eq with hlt | rfl
  · have hkept : ShiftsTo count (width - 1074) 0 width := ⟨by omega, hlt, hge⟩
    rw [hkept.shiftToTargetExponent_eq hpos, ofShifted]
    simp only [shiftRight_exact, Nat.pow_zero, Nat.div_one, dif_neg hpos.ne']
    exact pack_finite hlt hge hpos
  · have hcarry : ShiftsTo (2 ^ 53) (width - 1074) 1 (width + 1) := ⟨by omega, by decide, .inr le_rfl⟩
    have hbits : width * fractions + 2 ^ 53 = (width + 1) * fractions + 2 ^ 52 := by
      rw [hf]
      omega
    rw [hcarry.shiftToTargetExponent_eq hpos, ofShifted, hbits]
    simp only [shiftRight_exact]
    exact pack_finite (by decide) (.inr le_rfl) (by decide)

/-- A number with enough digits goes to the nearest double. -/
theorem isNearest_roundWithAccuracy (negative : Bool) (hm : 0 < m)
    (he : e ≤ Format.binary64.targetExponent (totalExponent m e)) :
    ∃ bits,
      Float.ofModel (Float.Model.pack (roundWithAccuracy Format.binary64 (sign negative) m e .exact)) =
      ofBits negative bits ∧ IsNearest (m * 2 ^ e) bits := by
  obtain ⟨s, width, h⟩ := exists_shiftsTo hm he
  obtain ⟨hle, hge⟩ := h.roundHalfEven_bounds
  have hround : roundWithAccuracy Format.binary64 (sign negative) m e .exact = ofShifted (sign negative)
      (shiftToTargetExponent Format.binary64
        (shiftToTargetExponent Format.binary64 m e .exact).1.roundedMantissa
        (shiftToTargetExponent Format.binary64 m e .exact).2 .exact) := rfl
  rw [hround, h.shiftToTargetExponent_eq hm, roundedMantissa_shiftRight]
  exact ⟨_, ofModel_ofShifted hle hge, h.isNearest⟩

theorem log2_mul_two_pow (hm : 0 < m) (k : Nat) : (m * 2 ^ k).log2 = m.log2 + k := by
  have hpos : 0 < 2 ^ k := Nat.two_pow_pos k
  refine (Nat.log2_eq_iff (Nat.mul_pos hm hpos).ne').mpr ⟨?_, ?_⟩
  · rw [Nat.pow_add]
    exact Nat.mul_le_mul_right _ (Nat.log2_self_le hm.ne')
  · rw [Nat.add_right_comm, Nat.pow_add]
    exact Nat.mul_lt_mul_of_pos_right Nat.lt_log2_self hpos

/-- So does every other number, with digits appended until there are enough. -/
theorem isNearest_round (negative : Bool) (hm : 0 < m) (e : Int) :
    ∃ bits, Float.ofModel (Float.Model.pack (UnpackedFloat.round Format.binary64 (sign negative) m e)) =
      ofBits negative bits ∧
      IsNearest (m * 2 ^ e) bits := by
  obtain ⟨k, hk⟩ : ∃ k, k = (e - Format.binary64.targetExponent (totalExponent m e)).toNat := ⟨_, rfl⟩
  have htotal : totalExponent (m * 2 ^ k) (e - k) = totalExponent m e := by
    rw [totalExponent, totalExponent, log2_mul_two_pow hm]
    omega
  have hvalue : (m : ℚ) * 2 ^ e = (m * 2 ^ k : Nat) * 2 ^ (e - k) := by
    rw [zpow_sub₀ two_ne_zero, zpow_natCast, Nat.cast_mul, Nat.cast_pow, Nat.cast_ofNat]
    field_simp
  have hplace : e - k ≤ Format.binary64.targetExponent (totalExponent (m * 2 ^ k) (e - k)) := by
    rw [htotal]
    omega
  rw [UnpackedFloat.round, decreaseExponent, ← hk, Nat.shiftLeft_eq, hvalue]
  exact isNearest_roundWithAccuracy negative (Nat.mul_pos hm (Nat.two_pow_pos k)) hplace

theorem normalize_of_pos (hm : 0 < m) (e : Int) (zeroSign : Sign) :
    UnpackedFloat.normalize Format.binary64 m e zeroSign =
      UnpackedFloat.round Format.binary64 (sign false) m e := by
  have hgt : compare (m : Int) 0 = .gt := compare_gt_iff_gt.mpr (by omega)
  rw [UnpackedFloat.normalize, hgt, Int.toNat_natCast]
  rfl

/-- A lower exponent makes a longer mantissa of the same number. -/
theorem decreaseExponent_value (m : Nat) {e t : Int} (h : t ≤ e) :
    ((decreaseExponent m e t).1 : ℚ) * 2 ^ t = m * 2 ^ e := by
  have hexp : e = (e - t).toNat + t := by omega
  rw [decreaseExponent, Nat.shiftLeft_eq, Nat.cast_mul, Nat.cast_pow, Nat.cast_ofNat, mul_assoc,
    ← zpow_natCast, ← zpow_add₀ two_ne_zero, ← hexp]

theorem decreaseExponent_pos (hm : 0 < m) (e t : Int) : 0 < (decreaseExponent m e t).1 := by
  rw [decreaseExponent, Nat.shiftLeft_eq]
  exact Nat.mul_pos hm (Nat.two_pow_pos _)

end

end DeskCalculator.Binary64
