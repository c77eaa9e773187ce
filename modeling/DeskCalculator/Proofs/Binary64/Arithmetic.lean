import DeskCalculator.Proofs.Binary64.Rounding

/-!
# Products and sums of doubles

The product of finite doubles is the double nearest to the product of their values, and so are sums of
positive doubles. Infinity absorbs every factor but zero. A natural number is taken for the double
nearest to it: for itself up to `2 ^ 53`.
-/

namespace DeskCalculator.Binary64

open Float.Model Float.Model.UnpackedFloat

/-! ## Products -/

theorem sign_mul (s t : Bool) : sign s * sign t = sign (s ^^ t) := by
  cases s <;> cases t <;> rfl

/-- A nonzero finite double is a mantissa of full length, or a shorter one with the lowest exponent. -/
theorem exists_mantissa (negative : Bool) {bits : Nat} (h0 : bits ≠ 0) (h : bits < infinity) : ∃ m e hm,
    (ofBits negative bits).toModel.unpack = .finite (sign negative) m e hm ∧ magnitude bits = m * 2 ^ e ∧
      (e = -1074 ∨ 2 ^ 52 ≤ m) := by
  have hu : (unitsPerOne : ℚ) = 2 ^ (1074 : Int) := by
    rw [unitsPerOne_eq, Nat.cast_pow, Nat.cast_ofNat]
    rfl
  rw [unpack_cases h.le, if_neg h.ne, dif_neg h0]
  split
  · rename_i hlow
    refine ⟨bits, -1074, Nat.pos_of_ne_zero h0, rfl, ?_, .inl rfl⟩
    rw [magnitude, unitsOfBits, if_pos hlow, hu, zpow_neg, div_eq_mul_inv]
  · rename_i hhigh
    refine ⟨fractions + bits % fractions, (bits / fractions : Nat) - 1075,
      Nat.add_pos_left (by decide) _, rfl, ?_, .inr ?_⟩
    · have hexp : ((bits / fractions : Nat) : Int) - 1075 = (bits / fractions - 1 : Nat) - 1074 := by
        have : 1 ≤ bits / fractions := (Nat.one_le_div_iff (by decide)).mpr (Nat.le_of_not_lt hhigh)
        omega
      rw [magnitude, unitsOfBits, if_neg hhigh, Nat.pow_eq, hu, hexp, zpow_sub₀ two_ne_zero,
        zpow_natCast, Nat.cast_mul, Nat.cast_pow, Nat.cast_ofNat, mul_div_assoc]
    · rw [fractions_eq]
      omega

theorem unpack_zero (negative : Bool) : (ofBits negative 0).toModel.unpack = .zero (sign negative) :=
  unpack_cases (Nat.zero_le _)

theorem unpack_infinity (negative : Bool) :
    (ofBits negative infinity).toModel.unpack = .infinity (sign negative) := by
  rw [unpack_cases le_rfl, if_pos rfl]

theorem mul_def (x y : Float) : x * y =
    Float.ofModel (Float.Model.pack
      (UnpackedFloat.mul Format.binary64 x.toModel.unpack y.toModel.unpack)) := rfl

/-- The product of two mantissas has enough digits to be rounded: one full mantissa makes it long enough,
and two short ones lie below the lowest exponent. -/
theorem le_targetExponent_mul {m m' : Nat} {e e' : Int} (hm : 0 < m) (hm' : 0 < m')
    (he : e = -1074 ∨ 2 ^ 52 ≤ m) (he' : e' = -1074 ∨ 2 ^ 52 ≤ m') :
    e + e' ≤ Format.binary64.targetExponent (totalExponent (m * m') (e + e')) := by
  show e + e' ≤ max (((m * m').log2 : Int) + 1 + (e + e') - 53) (-1074)
  by_cases hshort : e = -1074 ∧ e' = -1074
  · omega
  · have hlong : 2 ^ 52 ≤ m * m' := by
      rcases not_and_or.mp hshort with h | h
      · exact (he.resolve_left h).trans (Nat.le_mul_of_pos_right m hm')
      · exact (he'.resolve_left h).trans (Nat.le_mul_of_pos_left m' hm)
    have hlog := (Nat.le_log2 (Nat.mul_pos hm hm').ne').mpr hlong
    omega

section

variable (s t : Bool) {a b : Nat}

theorem mul_of_zero (ha : a < infinity) (hb : b < infinity) (h : a = 0 ∨ b = 0) :
    ofBits s a * ofBits t b = ofBits (s ^^ t) 0 := by
  rw [mul_def]
  apply ofModel_pack
  rw [unpack_zero, ← sign_mul]
  rcases eq_or_ne a 0 with rfl | ha0
  · rw [unpack_zero]
    rcases eq_or_ne b 0 with rfl | hb0
    · rw [unpack_zero]
      rfl
    · obtain ⟨m, e, hm, hu, -⟩ := exists_mantissa t hb0 hb
      rw [hu]
      rfl
  · obtain ⟨m, e, hm, hu, -⟩ := exists_mantissa s ha0 ha
    rw [hu, h.resolve_left ha0, unpack_zero]
    rfl

/-- The product of finite doubles is the one nearest to the product of their values. -/
theorem isNearest_mul (ha : a < infinity) (hb : b < infinity) :
    ∃ bits, ofBits s a * ofBits t b = ofBits (s ^^ t) bits ∧
      IsNearest (magnitude a * magnitude b) bits := by
  by_cases h0 : a = 0 ∨ b = 0
  · have hzero : magnitude a * magnitude b = magnitude 0 := by
      rcases h0 with rfl | rfl <;> simp only [magnitude_zero, zero_mul, mul_zero]
    rw [hzero]
    exact ⟨0, mul_of_zero s t ha hb h0, isNearest_magnitude (Nat.zero_le _)⟩
  obtain ⟨ha0, hb0⟩ := not_or.mp h0
  obtain ⟨m, e, hm, hu, hv, he⟩ := exists_mantissa s ha0 ha
  obtain ⟨m', e', hm', hu', hv', he'⟩ := exists_mantissa t hb0 hb
  have hproduct : magnitude a * magnitude b = (m * m' : Nat) * 2 ^ (e + e') := by
    rw [hv, hv', zpow_add₀ two_ne_zero, Nat.cast_mul]
    ring
  rw [mul_def, hu, hu', UnpackedFloat.mul, sign_mul, hproduct]
  exact isNearest_roundWithAccuracy _ (Nat.mul_pos hm hm') (le_targetExponent_mul hm hm' he he')

/-- Infinity absorbs every factor but zero. -/
theorem infinity_mul (hb : b ≤ infinity) (h0 : b ≠ 0) :
    ofBits s infinity * ofBits t b = ofBits (s ^^ t) infinity := by
  rw [mul_def, unpack_infinity]
  apply ofModel_pack
  rw [unpack_infinity, ← sign_mul]
  rcases hb.lt_or_eq with hlt | rfl
  · obtain ⟨m, e, hm, hu, -⟩ := exists_mantissa t h0 hlt
    rw [hu]
    rfl
  · rw [unpack_infinity]
    rfl

theorem mul_infinity (ha : a < infinity) (h0 : a ≠ 0) :
    ofBits s a * ofBits t infinity = ofBits (s ^^ t) infinity := by
  obtain ⟨m, e, hm, hu, -⟩ := exists_mantissa s h0 ha
  rw [mul_def, unpack_infinity, hu]
  apply ofModel_pack
  rw [unpack_infinity, ← sign_mul]
  rfl

end

/-! ## Sums -/

section

variable {a b : Nat}

theorem add_def (x y : Float) : x + y =
    Float.ofModel (Float.Model.pack
      (UnpackedFloat.add Format.binary64 x.toModel.unpack y.toModel.unpack)) := rfl

theorem zero_add_eq (hb : b < infinity) : ofBits false 0 + ofBits false b = ofBits false b := by
  rw [add_def, unpack_zero]
  apply ofModel_pack
  rcases eq_or_ne b 0 with rfl | hb0
  · rw [unpack_zero]
    rfl
  · obtain ⟨m, e, hm, hu, -⟩ := exists_mantissa false hb0 hb
    rw [hu]
    rfl

/-- The sum of a finite double and a positive one is the one nearest to the sum of their values. -/
theorem isNearest_add (ha : a < infinity) (hb : b < infinity) (hb0 : b ≠ 0) :
    ∃ bits, ofBits false a + ofBits false b = ofBits false bits ∧
      IsNearest (magnitude a + magnitude b) bits := by
  rcases eq_or_ne a 0 with rfl | ha0
  · rw [magnitude_zero, zero_add]
    exact ⟨b, zero_add_eq hb, isNearest_magnitude hb.le⟩
  obtain ⟨m, e, hm, hu, hv, -⟩ := exists_mantissa false ha0 ha
  obtain ⟨m', e', hm', hu', hv', -⟩ := exists_mantissa false hb0 hb
  obtain ⟨n, hn⟩ :
      ∃ n, n = (decreaseExponent m e (min e e')).1 + (decreaseExponent m' e' (min e e')).1 := ⟨_, rfl⟩
  have hpos : 0 < n := hn ▸ Nat.add_pos_left (decreaseExponent_pos hm _ _) _
  have hsum :
      UnpackedFloat.add Format.binary64 (.finite (sign false) m e hm) (.finite (sign false) m' e' hm') =
      UnpackedFloat.normalize Format.binary64 n (min e e') .positive := by
    rw [hn, Nat.cast_add]
    rfl
  have hvalue : magnitude a + magnitude b = n * 2 ^ min e e' := by
    rw [hn, Nat.cast_add, add_mul, decreaseExponent_value m (min_le_left e e'),
      decreaseExponent_value m' (min_le_right e e'), hv, hv']
  rw [add_def, hu, hu', hsum, normalize_of_pos hpos, hvalue]
  exact isNearest_round false hpos _

end

/-! ## Natural numbers -/

/-- A whole number up to `2 ^ 53` is a double. -/
theorem exists_magnitude_eq {n : Nat} (h : n ≤ 2 ^ 53) : ∃ bits < infinity, magnitude bits = n := by
  have hf := fractions_eq
  have hi := infinity_eq
  rcases Nat.eq_zero_or_pos n with rfl | hpos
  · exact ⟨0, by decide, by rw [magnitude_zero, Nat.cast_zero]⟩
  obtain ⟨k, hk⟩ : ∃ k, k = 52 - n.log2 := ⟨_, rfl⟩
  have hlow : 2 ^ 52 ≤ n * 2 ^ k := by
    have hlog := log2_mul_two_pow hpos k
    exact (Nat.le_log2 (Nat.mul_pos hpos (Nat.two_pow_pos k)).ne').mp (by omega)
  have hhigh : n * 2 ^ k ≤ 2 ^ 53 := by
    rcases Nat.eq_zero_or_pos k with rfl | hk0
    · omega
    · have hlog := log2_mul_two_pow hpos k
      exact ((Nat.log2_lt (Nat.mul_pos hpos (Nat.two_pow_pos k)).ne').mp (by omega)).le
  refine ⟨(1074 - k) * fractions + n * 2 ^ k, ?_, magnitude_eq_natCast ?_⟩
  · rw [hf, hi]
    omega
  · rw [unitsOfBits_eq hhigh (.inr hlow), unitsPerOne_eq, Nat.mul_assoc, ← Nat.pow_add]
    congr 2
    omega

theorem exists_one :
    ∃ bits < infinity, bits ≠ 0 ∧ (1 : Float) = ofBits false bits ∧ magnitude bits = 1 := by
  refine ⟨1023 * fractions, by decide, by decide, by decide +kernel, ?_⟩
  exact_mod_cast magnitude_eq_natCast (n := 1) (by decide +kernel)

theorem ofNat_of_lt {n : Nat} (h : n < 2 ^ 53) :
    Float.ofNat n = Float.ofModel (Float.Model.pack (UnpackedFloat.ofNat Format.binary64 n)) * 1 := by
  have hfast : n < 2 ^ 53 ∧ 0 ≤ 22 := ⟨h, by decide⟩
  have hone : (1 : Float) = Float.ofBits 0x3FF0000000000000 := by decide +kernel
  have hn : n.toUInt64.toNat = n := by
    rw [Nat.toUInt64, UInt64.toNat_ofNat', Nat.mod_eq_of_lt (h.trans (by decide))]
  have hfloat : n.toUInt64.toFloat =
      Float.ofModel (Float.Model.pack (UnpackedFloat.ofNat Format.binary64 n.toUInt64.toNat)) := rfl
  rw [hn] at hfloat
  rw [hone, ← hfloat]
  show (if _ : n < 2 ^ 53 ∧ 0 ≤ 22 then _ else _) = _
  rw [dif_pos hfast]
  rfl

theorem ofNat_of_ge {n : Nat} (h : 2 ^ 53 ≤ n) : Float.ofNat n =
    Float.ofModel (Float.Model.pack
      (roundWithAccuracy Format.binary64 (sign false) (n <<< 53 * 1) (-53 + 0) .exact)) := by
  have hslow : ¬ (n < 2 ^ 53 ∧ 0 ≤ 22) := fun hlt => Nat.not_lt.mpr h hlt.1
  have hn : n ≠ 0 := by omega
  show (if _ : n < 2 ^ 53 ∧ 0 ≤ 22 then _ else _) = _
  rw [dif_neg hslow]
  show Float.ofModel (Float.Model.pack (UnpackedFloat.ofScientific Format.binary64 n 0)) = _
  rw [UnpackedFloat.ofScientific, dif_neg hn, if_neg (by decide), if_neg, if_pos le_rfl]
  · rfl
  · show ¬ (0 : Int) < -(2048 + n.log2)
    omega

theorem ofModel_ofNat {n bits : Nat} (hb : bits ≤ infinity) (hn : magnitude bits = n) :
    Float.ofModel (Float.Model.pack (UnpackedFloat.ofNat Format.binary64 n)) = ofBits false bits := by
  rcases Nat.eq_zero_or_pos n with rfl | hpos
  · obtain rfl : bits = 0 := magnitude_inj.mp (by rw [hn, magnitude_zero, Nat.cast_zero])
    exact ofModel_pack (unpack_zero false)
  · obtain ⟨bits', he, hnear⟩ := isNearest_round false hpos 0
    rw [zpow_zero, mul_one, ← hn] at hnear
    rw [UnpackedFloat.ofNat, UnpackedFloat.ofInt, normalize_of_pos hpos, he,
      (isNearest_magnitude hb).unique hnear]

/-- A natural number is taken for the nearest double. -/
theorem isNearest_ofNat (n : Nat) : ∃ bits, Float.ofNat n = ofBits false bits ∧ IsNearest n bits := by
  rcases Nat.lt_or_ge n (2 ^ 53) with hlt | hge
  · obtain ⟨bits, hb, hn⟩ := exists_magnitude_eq hlt.le
    obtain ⟨one, hone, -, h1, hm⟩ := exists_one
    have hproduct := isNearest_mul false false hb hone
    rw [hm, mul_one, hn] at hproduct
    rw [ofNat_of_lt hlt, ofModel_ofNat hb.le hn, h1]
    exact hproduct
  · have hpos : 0 < n <<< 53 * 1 := by
      rw [Nat.shiftLeft_eq]
      omega
    have hlong : 2 ^ 53 ≤ n <<< 53 * 1 := by
      rw [Nat.shiftLeft_eq]
      omega
    have hlog := (Nat.le_log2 hpos.ne').mpr hlong
    have hplace :
        (-53 + 0 : Int) ≤ Format.binary64.targetExponent (totalExponent (n <<< 53 * 1) (-53 + 0)) := by
      show (-53 + 0 : Int) ≤ max (((n <<< 53 * 1).log2 : Int) + 1 + (-53 + 0) - 53) (-1074)
      omega
    have hvalue : ((n <<< 53 * 1 : Nat) : ℚ) * 2 ^ (-53 + 0 : Int) = n := by
      rw [Nat.shiftLeft_eq, mul_one, Nat.cast_mul, Nat.cast_pow, Nat.cast_ofNat, add_zero, zpow_neg]
      exact mul_inv_cancel_right₀ (by positivity) _
    have hround := isNearest_roundWithAccuracy false hpos hplace
    rw [hvalue] at hround
    rw [ofNat_of_ge hge]
    exact hround

/-- Whole numbers up to `2 ^ 53` are taken for themselves. -/
theorem ofNat_eq {n : Nat} (h : n ≤ 2 ^ 53) :
    ∃ bits < infinity, Float.ofNat n = ofBits false bits ∧ magnitude bits = n := by
  obtain ⟨bits, hb, hn⟩ := exists_magnitude_eq h
  obtain ⟨bits', he, hnear⟩ := isNearest_ofNat n
  rw [← hn] at hnear
  exact ⟨bits, hb, by rw [he, (isNearest_magnitude hb.le).unique hnear], hn⟩

/-- So counting goes on one by one there. -/
theorem ofNat_add_one {n : Nat} (h : n < 2 ^ 53) : Float.ofNat n + 1 = Float.ofNat (n + 1) := by
  obtain ⟨a, ha, he, hn⟩ := ofNat_eq h.le
  obtain ⟨one, hone, hone0, h1, hm⟩ := exists_one
  obtain ⟨b, hb, he', hn'⟩ := ofNat_eq (Nat.succ_le_of_lt h)
  obtain ⟨bits, hadd, hnear⟩ := isNearest_add ha hone hone0
  have hsum : magnitude a + magnitude one = magnitude b := by
    rw [hn, hm, hn', Nat.cast_succ]
  rw [hsum] at hnear
  rw [he, h1, hadd, he', (isNearest_magnitude hb.le).unique hnear]

end DeskCalculator.Binary64
