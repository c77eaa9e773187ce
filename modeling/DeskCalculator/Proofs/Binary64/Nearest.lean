import DeskCalculator.Proofs.Binary64.Bits

/-!
# The nearest double

The magnitudes of the doubles grow with their bits. Every nonnegative number has one nearest double,
a half going to the even one, and rounding a quotient finds it.
-/

namespace DeskCalculator.Binary64

/-! ## Magnitudes -/

/-- The magnitude of the double of these bits; the bits of infinity stand for `2 ^ 1024`. -/
def magnitude (bits : Nat) : ℚ := (unitsOfBits bits : ℚ) / unitsPerOne

/-- The number that a finite double is. -/
def value (x : Float) : ℚ := (if isNegative x then -1 else 1) * magnitude (magnitudeBits x)

theorem unitsPerOne_eq : unitsPerOne = 2 ^ 1074 := by decide +kernel

theorem unitsPerOne_pos : 0 < unitsPerOne := by decide +kernel

theorem cast_unitsPerOne_pos : (0 : ℚ) < unitsPerOne := Nat.cast_pos.mpr unitsPerOne_pos

theorem magnitude_eq_natCast {bits n : Nat} (h : unitsOfBits bits = n * unitsPerOne) :
    magnitude bits = n := by
  rw [magnitude, h, Nat.cast_mul, mul_div_cancel_right₀ _ cast_unitsPerOne_pos.ne']

/-- The doubles between two powers of two lie in steps of equal width, `2 ^ 52` of them; the first powers
share the width of zero. -/
theorem unitsOfBits_eq {width count : Nat} (hc : count ≤ 2 ^ 53) (hw : width = 0 ∨ 2 ^ 52 ≤ count) :
    unitsOfBits (width * fractions + count) = count * 2 ^ width := by
  have hf := fractions_eq
  by_cases hlow : width * fractions + count < fractions
  · obtain rfl : width = 0 := by omega
    rw [unitsOfBits, if_pos hlow]
    omega
  rw [unitsOfBits, if_neg hlow, Nat.pow_eq]
  by_cases htop : count = 2 ^ 53
  · have hq : (width * fractions + count) / fractions = width + 2 := by rw [hf]; omega
    have hr : (width * fractions + count) % fractions = 0 := by rw [hf]; omega
    rw [hq, hr, hf, htop, Nat.add_zero, ← Nat.pow_add, ← Nat.pow_add]
    congr 1
    omega
  · have hq : (width * fractions + count) / fractions = width + 1 := by rw [hf] at hlow ⊢; omega
    have hr : fractions + (width * fractions + count) % fractions = count := by rw [hf] at hlow ⊢; omega
    rw [hq, hr, Nat.add_sub_cancel]

theorem exists_width (bits : Nat) : ∃ width count, bits = width * fractions + count ∧ count < 2 ^ 53 ∧
    (width = 0 ∨ 2 ^ 52 ≤ count) := by
  have hf := fractions_eq
  refine ⟨bits / fractions - 1, bits - (bits / fractions - 1) * fractions, ?_, ?_, ?_⟩ <;>
    rw [hf] <;> omega

theorem strictMono_unitsOfBits : StrictMono unitsOfBits := by
  refine strictMono_nat_of_lt_succ fun bits => ?_
  obtain ⟨width, count, rfl, hc, hw⟩ := exists_width bits
  rw [unitsOfBits_eq hc.le hw, Nat.add_assoc,
    unitsOfBits_eq hc (hw.imp id fun h => h.trans count.le_succ)]
  exact Nat.mul_lt_mul_of_pos_right count.lt_succ_self (Nat.two_pow_pos width)

theorem exists_gap (bits : Nat) : ∃ width, unitsOfBits (bits + 1) = unitsOfBits bits + 2 ^ width ∧
    (fractions ≤ bits → 2 ^ 52 * 2 ^ width ≤ unitsOfBits bits) ∧
    (fractions ≤ bits + 1 → 2 ^ 52 * 2 ^ width ≤ unitsOfBits (bits + 1)) := by
  have hf := fractions_eq
  obtain ⟨width, count, rfl, hc, hw⟩ := exists_width bits
  have hsucc := @unitsOfBits_eq width (count + 1) hc (hw.imp id fun h => h.trans count.le_succ)
  rw [← Nat.add_assoc] at hsucc
  rw [hsucc, unitsOfBits_eq hc.le hw]
  refine ⟨width, by ring, fun h => Nat.mul_le_mul_right _ ?_, fun h => Nat.mul_le_mul_right _ ?_⟩
  all_goals
    rw [hf] at h
    rcases hw with rfl | hw <;> omega

/-- From a power of two on, all doubles lie on the steps that begin there. -/
theorem pow_dvd_unitsOfBits {width bits : Nat} (h : 2 ^ (width + 52) ≤ unitsOfBits bits) :
    2 ^ width ∣ unitsOfBits bits := by
  obtain ⟨width', count, rfl, hc, hw⟩ := exists_width bits
  rw [unitsOfBits_eq hc.le hw] at h ⊢
  have hlt : 2 ^ (width + 52) < 2 ^ (width' + 53) := by
    refine h.trans_lt ?_
    rw [Nat.pow_add _ width', Nat.mul_comm _ (2 ^ 53)]
    exact Nat.mul_lt_mul_of_pos_right hc (Nat.two_pow_pos width')
  have hle := (Nat.pow_lt_pow_iff_right (by decide)).mp hlt
  exact Nat.dvd_mul_left_of_dvd (Nat.pow_dvd_pow 2 (by omega)) count

/-! ## Rounding to a whole number -/

section

variable {n d : Nat}

theorem abs_sub_roundHalfEven (hd : 0 < d) : |(n : ℚ) / d - roundHalfEven n d| ≤ 1 / 2 ∧
    (|(n : ℚ) / d - roundHalfEven n d| = 1 / 2 → Even (roundHalfEven n d)) := by
  have hd' : (0 : ℚ) < d := by exact_mod_cast hd
  have hn : (n : ℚ) / d = (n / d : Nat) + ((n % d : Nat) : ℚ) / d := by
    field_simp
    exact_mod_cast (Nat.div_add_mod' n d).symm.trans (by ring)
  have h0 : (0 : ℚ) ≤ ((n % d : Nat) : ℚ) / d := by positivity
  have hhalf : ∀ c : ℚ, (n / d : Nat) + ((n % d : Nat) : ℚ) / d - c =
      ((n % d : Nat) : ℚ) / d - (c - (n / d : Nat)) :=
    fun c => by ring
  rw [hn, hhalf]
  unfold roundHalfEven
  dsimp only
  split_ifs with hlow hhigh
  · have hlt : ((n % d : Nat) : ℚ) / d < 1 / 2 := by
      rw [div_lt_div_iff₀ hd' two_pos]
      exact_mod_cast (by omega : n % d * 2 < 1 * d)
    rw [sub_self, sub_zero, abs_of_nonneg h0]
    exact ⟨hlt.le, fun h => absurd h hlt.ne⟩
  · have hlt : 1 / 2 < ((n % d : Nat) : ℚ) / d := by
      rw [div_lt_div_iff₀ two_pos hd']
      exact_mod_cast (by omega : 1 * d < n % d * 2)
    have hle : ((n % d : Nat) : ℚ) / d ≤ 1 := by
      rw [div_le_one hd']
      exact_mod_cast (Nat.mod_lt n hd).le
    rw [Nat.cast_add, Nat.cast_one, add_sub_cancel_left, abs_of_nonpos (by linarith)]
    exact ⟨by linarith, fun h => by linarith⟩
  · have heq : ((n % d : Nat) : ℚ) / d = 1 / 2 := by
      rw [div_eq_div_iff hd'.ne' two_ne_zero]
      exact_mod_cast (by omega : n % d * 2 = 1 * d)
    rw [heq]
    rcases Nat.mod_two_eq_zero_or_one (n / d) with h | h
    · rw [h, Nat.add_zero, sub_self, sub_zero]
      exact ⟨by norm_num, fun _ => Nat.even_iff.mpr h⟩
    · rw [h, Nat.cast_add, Nat.cast_one, add_sub_cancel_left]
      exact ⟨by norm_num, fun _ => Nat.even_iff.mpr (by omega)⟩

/-- No whole number is nearer, and of two that are equally near it is the even one. -/
theorem roundHalfEven_nearest (hd : 0 < d) (m : Nat) :
    |(n : ℚ) / d - roundHalfEven n d| ≤ |(n : ℚ) / d - m| ∧
      (|(n : ℚ) / d - roundHalfEven n d| = |(n : ℚ) / d - m| →
        m = roundHalfEven n d ∨ Even (roundHalfEven n d)) := by
  obtain ⟨hle, heven⟩ := @abs_sub_roundHalfEven n d hd
  by_cases hm : m = roundHalfEven n d
  · subst hm
    exact ⟨le_refl _, fun _ => .inl rfl⟩
  have hone : (1 : ℚ) ≤ |(m : ℚ) - roundHalfEven n d| := by
    have : (1 : ℤ) ≤ |(m : ℤ) - roundHalfEven n d| := Int.one_le_abs (by omega)
    exact_mod_cast this
  have htri := abs_sub_le (m : ℚ) ((n : ℚ) / d) (roundHalfEven n d)
  rw [abs_sub_comm (m : ℚ) ((n : ℚ) / d)] at htri
  exact ⟨by linarith, fun h => .inr (heven (by linarith))⟩

theorem roundHalfEven_le {m : Nat} (hd : 0 < d) (h : (n : ℚ) / d ≤ m) : roundHalfEven n d ≤ m := by
  have hle := abs_le.mp (@abs_sub_roundHalfEven n d hd).1
  have : (roundHalfEven n d : ℚ) < m + 1 := by linarith
  exact Nat.lt_succ_iff.mp (by exact_mod_cast this)

theorem le_roundHalfEven {m : Nat} (hd : 0 < d) (h : (m : ℚ) ≤ n / d) : m ≤ roundHalfEven n d := by
  have hle := abs_le.mp (@abs_sub_roundHalfEven n d hd).1
  have : (m : ℚ) < roundHalfEven n d + 1 := by linarith
  exact Nat.lt_succ_iff.mp (by exact_mod_cast this)

end

/-! ## The nearest double -/

/-- No double is nearer to the number, and of two that are equally near it is the even one. -/
def IsNearest (q : ℚ) (bits : Nat) : Prop :=
  bits ≤ infinity ∧ ∀ b ≤ infinity, |q - magnitude bits| ≤ |q - magnitude b| ∧
    (|q - magnitude bits| = |q - magnitude b| → b = bits ∨ Even bits)

/-- The width of the steps between the doubles around the quotient. -/
def widthOf (n d : Nat) : Nat := (n / d).log2 - 52

section

variable {n d : Nat} (hd : 0 < d)
include hd

theorem div_lt_pow : (n : ℚ) / d < 2 ^ (widthOf n d + 53) := by
  have hlt : n / d < 2 ^ (widthOf n d + 53) := by
    refine Nat.lt_log2_self.trans_le (Nat.pow_le_pow_right (by decide) ?_)
    unfold widthOf
    omega
  rw [div_lt_iff₀ (by exact_mod_cast hd)]
  exact_mod_cast (Nat.div_lt_iff_lt_mul hd).mp hlt

theorem pow_le_div (hw : widthOf n d ≠ 0) : (2 : ℚ) ^ (widthOf n d + 52) ≤ n / d := by
  have hlog : widthOf n d + 52 = (n / d).log2 := by
    unfold widthOf at hw ⊢
    omega
  have hne : n / d ≠ 0 := by
    intro h0
    rw [h0] at hlog
    simp at hlog
  have hle : 2 ^ (widthOf n d + 52) ≤ n / d := hlog ▸ Nat.log2_self_le hne
  rw [le_div_iff₀ (by exact_mod_cast hd)]
  exact_mod_cast (Nat.le_div_iff_mul_le hd).mp hle

theorem div_mul_pow (w : Nat) : (n : ℚ) / d = n / (d * 2 ^ w : Nat) * 2 ^ w := by
  have : (d : ℚ) ≠ 0 := by exact_mod_cast hd.ne'
  push_cast
  field_simp

theorem count_le : roundHalfEven n (d * 2 ^ widthOf n d) ≤ 2 ^ 53 := by
  have hpos : 0 < d * 2 ^ widthOf n d := Nat.mul_pos hd (Nat.two_pow_pos _)
  refine roundHalfEven_le hpos ?_
  have := div_lt_pow hd (n := n)
  rw [div_mul_pow hd (widthOf n d), pow_add, mul_comm (2 ^ _)] at this
  exact_mod_cast (lt_of_mul_lt_mul_right this (by positivity)).le

theorem le_count : widthOf n d = 0 ∨ 2 ^ 52 ≤ roundHalfEven n (d * 2 ^ widthOf n d) := by
  by_cases hw : widthOf n d = 0
  · exact .inl hw
  have hpos : 0 < d * 2 ^ widthOf n d := Nat.mul_pos hd (Nat.two_pow_pos _)
  refine .inr (le_roundHalfEven hpos ?_)
  have := pow_le_div hd hw
  rw [div_mul_pow hd (widthOf n d), pow_add, mul_comm (2 ^ _)] at this
  exact_mod_cast le_of_mul_le_mul_right this (by positivity)

/-- No multiple of the width is nearer to the quotient than the rounded one. -/
theorem nearest_multiple (m : Nat) :
    |(n : ℚ) / d - roundHalfEven n (d * 2 ^ widthOf n d) * 2 ^ widthOf n d| ≤
      |(n : ℚ) / d - m * 2 ^ widthOf n d| ∧
      (|(n : ℚ) / d - roundHalfEven n (d * 2 ^ widthOf n d) * 2 ^ widthOf n d| =
        |(n : ℚ) / d - m * 2 ^ widthOf n d| →
        m = roundHalfEven n (d * 2 ^ widthOf n d) ∨ Even (roundHalfEven n (d * 2 ^ widthOf n d))) := by
  have hpos : 0 < d * 2 ^ widthOf n d := Nat.mul_pos hd (Nat.two_pow_pos _)
  have hp : (0 : ℚ) < 2 ^ widthOf n d := by positivity
  obtain ⟨hle, htie⟩ := @roundHalfEven_nearest n _ hpos m
  have hscale : ∀ c : ℚ, |(n : ℚ) / d - c * 2 ^ widthOf n d| =
      |(n : ℚ) / (d * 2 ^ widthOf n d : Nat) - c| * 2 ^ widthOf n d := fun c => by
    rw [div_mul_pow hd (widthOf n d), ← sub_mul, abs_mul, abs_of_pos hp]
  rw [hscale, hscale]
  exact ⟨mul_le_mul_of_nonneg_right hle hp.le, fun h => htie (mul_right_cancel₀ hp.ne' h)⟩

/-- Nor is any double. -/
theorem nearest_units (bits : Nat) :
    |(n : ℚ) / d - roundHalfEven n (d * 2 ^ widthOf n d) * 2 ^ widthOf n d| ≤
      |(n : ℚ) / d - unitsOfBits bits| ∧
      (|(n : ℚ) / d - roundHalfEven n (d * 2 ^ widthOf n d) * 2 ^ widthOf n d| =
        |(n : ℚ) / d - unitsOfBits bits| →
        unitsOfBits bits = roundHalfEven n (d * 2 ^ widthOf n d) * 2 ^ widthOf n d ∨
          Even (roundHalfEven n (d * 2 ^ widthOf n d))) := by
  by_cases hdvd : 2 ^ widthOf n d ∣ unitsOfBits bits
  · obtain ⟨m, hm⟩ := hdvd
    obtain ⟨hle, htie⟩ := nearest_multiple hd (n := n) m
    have hcast : (unitsOfBits bits : ℚ) = m * 2 ^ widthOf n d := by
      rw [hm, mul_comm]
      push_cast
      rfl
    rw [hcast]
    refine ⟨hle, fun h => (htie h).imp (fun he => ?_) id⟩
    rw [hm, he, mul_comm]
  · -- Doubles below the power of two are further away than the power itself.
    have hw : widthOf n d ≠ 0 := fun h0 => hdvd (by rw [h0, pow_zero]; exact one_dvd _)
    have hlt : unitsOfBits bits < 2 ^ (widthOf n d + 52) :=
      Nat.lt_of_not_le fun h => hdvd (pow_dvd_unitsOfBits h)
    have hle := pow_le_div hd hw
    have hcast : ((2 ^ 52 : Nat) : ℚ) * 2 ^ widthOf n d = 2 ^ (widthOf n d + 52) := by
      rw [pow_add, mul_comm]
      push_cast
      rfl
    have hlt : (unitsOfBits bits : ℚ) < 2 ^ (widthOf n d + 52) := by exact_mod_cast hlt
    have hfar : |(n : ℚ) / d - (2 ^ 52 : Nat) * 2 ^ widthOf n d| < |(n : ℚ) / d - unitsOfBits bits| := by
      rw [hcast, abs_of_nonneg (by linarith), abs_of_nonneg (by linarith)]
      linarith
    have hless := (nearest_multiple hd (n := n) (2 ^ 52)).1.trans_lt hfar
    exact ⟨hless.le, fun h => absurd h hless.ne⟩

end

theorem abs_sub_magnitude (x : ℚ) (bits : Nat) :
    |x / unitsPerOne - magnitude bits| = |x - unitsOfBits bits| / unitsPerOne := by
  have hu := cast_unitsPerOne_pos
  rw [magnitude, ← sub_div, abs_div, abs_of_pos hu]

theorem magnitude_le_iff {a b : Nat} : magnitude a ≤ magnitude b ↔ a ≤ b := by
  have hu := cast_unitsPerOne_pos
  rw [magnitude, magnitude, div_le_div_iff_of_pos_right hu, Nat.cast_le,
    strictMono_unitsOfBits.le_iff_le]

theorem magnitude_lt_iff {a b : Nat} : magnitude a < magnitude b ↔ a < b := by
  rw [← not_le, magnitude_le_iff, not_le]

theorem magnitude_inj {a b : Nat} : magnitude a = magnitude b ↔ a = b := by
  rw [le_antisymm_iff, magnitude_le_iff, magnitude_le_iff, ← le_antisymm_iff]

theorem magnitude_zero : magnitude 0 = 0 := by
  rw [magnitude, show unitsOfBits 0 = 0 from rfl, Nat.cast_zero, zero_div]

theorem magnitude_nonneg (bits : Nat) : 0 ≤ magnitude bits := by
  rw [← magnitude_zero, magnitude_le_iff]
  exact Nat.zero_le bits

theorem magnitude_pow (width : Nat) :
    magnitude (width * fractions + 2 ^ 52) = 2 ^ (width + 52) / unitsPerOne := by
  rw [magnitude, unitsOfBits_eq (by decide) (.inr (le_refl _)), Nat.mul_comm, ← Nat.pow_add,
    Nat.cast_pow, Nat.cast_ofNat]

/-- Up to half of the smallest double, nothing is nearer than zero. -/
theorem isNearest_zero {q : ℚ} (h0 : 0 ≤ q) (h : 2 * q ≤ magnitude 1) : IsNearest q 0 := by
  refine ⟨Nat.zero_le _, fun b _ => ?_⟩
  rcases Nat.eq_zero_or_pos b with rfl | hb
  · exact ⟨le_refl _, fun _ => .inl rfl⟩
  have hle := magnitude_le_iff.mpr hb
  rw [magnitude_zero, sub_zero, abs_of_nonneg h0, abs_of_nonpos (by linarith)]
  exact ⟨by linarith, fun _ => .inr Even.zero⟩

/-- Beyond the largest magnitude the last one is the nearest. -/
theorem isNearest_infinity {q : ℚ} (h : magnitude infinity ≤ q) : IsNearest q infinity := by
  refine ⟨le_refl _, fun b hb => ?_⟩
  have hle := magnitude_le_iff.mpr hb
  rw [abs_of_nonneg (by linarith), abs_of_nonneg (by linarith)]
  exact ⟨by linarith, fun h => .inl (magnitude_inj.mp (by linarith))⟩

theorem isNearest_nearestBits {n d : Nat} (hd : 0 < d) :
    IsNearest ((n : ℚ) / d / unitsPerOne) (nearestBits n d) := by
  have hu := cast_unitsPerOne_pos
  have hf := fractions_eq
  have hi := infinity_eq
  have hcount := count_le hd (n := n)
  have hdef : nearestBits n d =
      min infinity (widthOf n d * fractions + roundHalfEven n (d * 2 ^ widthOf n d)) := rfl
  have hunits := unitsOfBits_eq hcount (le_count hd)
  by_cases hle : widthOf n d * fractions + roundHalfEven n (d * 2 ^ widthOf n d) ≤ infinity
  · rw [hdef, min_eq_right hle]
    refine ⟨hle, fun b _ => ?_⟩
    obtain ⟨hnear, htie⟩ := nearest_units hd (n := n) b
    rw [abs_sub_magnitude, abs_sub_magnitude, hunits]
    push_cast
    refine ⟨div_le_div_of_nonneg_right hnear hu.le, fun h => ?_⟩
    rcases htie ((div_left_inj' hu.ne').mp h) with hb | heven
    · exact .inl (strictMono_unitsOfBits.injective (hb.trans hunits.symm))
    · have : Even (widthOf n d * fractions) := Nat.even_mul.mpr (.inr (by rw [hf]; decide))
      exact .inr (this.add heven)
  · rw [hdef, min_eq_left (Nat.le_of_not_le hle)]
    refine isNearest_infinity ?_
    have hw : 2046 ≤ widthOf n d := by
      rw [hf] at hle
      omega
    have hpow := pow_le_div hd (by omega : widthOf n d ≠ 0)
    have htop : infinity = 2046 * fractions + 2 ^ 52 := by rw [hf, hi]; rfl
    rw [htop, magnitude_pow, div_le_div_iff_of_pos_right hu]
    exact (pow_le_pow_right₀ one_le_two (by omega)).trans hpow

/-! ## What is nearest -/

theorem isNearest_magnitude {bits : Nat} (h : bits ≤ infinity) : IsNearest (magnitude bits) bits := by
  refine ⟨h, fun b _ => ?_⟩
  rw [sub_self, abs_zero]
  exact ⟨abs_nonneg _, fun he => .inl (magnitude_inj.mp (sub_eq_zero.mp (abs_eq_zero.mp he.symm))).symm⟩

namespace IsNearest

variable {q : ℚ} {bits : Nat} (h : IsNearest q bits)
include h

theorem le_of_magnitude_le {a : Nat} (ha : a ≤ infinity) (hq : magnitude a ≤ q) : a ≤ bits := by
  by_contra hlt
  have hm := magnitude_lt_iff.mpr (Nat.lt_of_not_le hlt)
  have := (h.2 a ha).1
  rw [abs_of_nonneg (by linarith), abs_of_nonneg (by linarith)] at this
  linarith

theorem le_of_le_magnitude {a : Nat} (ha : a ≤ infinity) (hq : q ≤ magnitude a) : bits ≤ a := by
  by_contra hlt
  have hm := magnitude_lt_iff.mpr (Nat.lt_of_not_le hlt)
  have := (h.2 a ha).1
  rw [abs_of_nonpos (by linarith), abs_of_nonpos (by linarith)] at this
  linarith

/-- There is one nearest double only: two of them would be neighbours and both even. -/
theorem unique {bits' : Nat} (h' : IsNearest q bits') : bits' = bits := by
  have hdist : |q - magnitude bits| = |q - magnitude bits'| :=
    le_antisymm (h.2 bits' h'.1).1 (h'.2 bits h.1).1
  by_contra hne
  have heven := ((h.2 bits' h'.1).2 hdist).resolve_left hne
  have heven' := ((h'.2 bits h.1).2 hdist.symm).resolve_left (Ne.symm hne)
  obtain ⟨a, b, hab, ha, hb⟩ : ∃ a b, a + 1 < b ∧ IsNearest q a ∧ IsNearest q b := by
    rw [Nat.even_iff] at heven heven'
    rcases Nat.lt_or_gt_of_ne hne with hlt | hlt
    · exact ⟨bits', bits, by omega, h', h⟩
    · exact ⟨bits, bits', by omega, h, h'⟩
  have hlow := magnitude_lt_iff.mpr a.lt_succ_self
  have hhigh := magnitude_lt_iff.mpr hab
  have hnear := (ha.2 (a + 1) (hab.le.trans hb.1)).1
  have hsame := (ha.2 b hb.1).1
  have hsame' := (hb.2 a ha.1).1
  rcases abs_cases (q - magnitude a) with h1 | h1 <;> rcases abs_cases (q - magnitude b) with h2 | h2 <;>
    rcases abs_cases (q - magnitude (a + 1)) with h3 | h3 <;> linarith

/-- Where the doubles do not thin out towards zero, the nearest one differs in the 54th place. -/
theorem abs_sub_le (hlow : fractions ≤ bits) (htop : bits < infinity) :
    |q - magnitude bits| ≤ magnitude bits / 2 ^ 53 := by
  have hgap : ∀ b, fractions ≤ b + 1 → magnitude (b + 1) - magnitude b ≤ magnitude (b + 1) / 2 ^ 52 ∧
      (fractions ≤ b → magnitude (b + 1) - magnitude b ≤ magnitude b / 2 ^ 52) := by
    intro b hb
    have hu := cast_unitsPerOne_pos
    obtain ⟨width, hs, hlow, hhigh⟩ := exists_gap b
    have hdiff : magnitude (b + 1) - magnitude b = 2 ^ width / unitsPerOne := by
      rw [magnitude, magnitude, ← sub_div, hs, Nat.cast_add, add_sub_cancel_left, Nat.cast_pow,
        Nat.cast_ofNat]
    have hle : ∀ u : Nat, 2 ^ 52 * 2 ^ width ≤ u →
        (2 : ℚ) ^ width / unitsPerOne ≤ u / unitsPerOne / 2 ^ 52 := by
      intro u h
      rw [le_div_iff₀ (by positivity), div_mul_eq_mul_div, div_le_div_iff_of_pos_right hu, mul_comm]
      exact_mod_cast h
    rw [hdiff]
    exact ⟨hle _ (hhigh hb), fun h => hle _ (hlow h)⟩
  rcases le_total (magnitude bits) q with hq | hq
  · have hstep := magnitude_lt_iff.mpr bits.lt_succ_self
    have hnear := (h.2 (bits + 1) htop).1
    have := (hgap bits (by omega)).2 hlow
    rw [abs_of_nonneg (by linarith)] at hnear ⊢
    rcases abs_cases (q - magnitude (bits + 1)) with h1 | h1 <;> linarith
  · obtain ⟨b, rfl⟩ : ∃ b, bits = b + 1 := ⟨bits - 1, by rw [fractions_eq] at hlow; omega⟩
    have hstep := magnitude_lt_iff.mpr b.lt_succ_self
    have hnear := (h.2 b (b.le_succ.trans htop.le)).1
    have := (hgap b hlow).1
    rw [abs_of_nonpos (by linarith)] at hnear ⊢
    rcases abs_cases (q - magnitude b) with h1 | h1 <;> linarith

end IsNearest

end DeskCalculator.Binary64
