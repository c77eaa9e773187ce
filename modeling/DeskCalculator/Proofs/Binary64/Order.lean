import DeskCalculator.Proofs.Binary64.Nearest

/-!
# The order of doubles

Doubles are ordered as the numbers that they are: the two zeros are equal, infinity lies above all finite
ones, and what is not a number is not in the order.
-/

namespace DeskCalculator.Binary64

open Float.Model Float.Model.UnpackedFloat

section

variable {a b : Nat} (ha : a ≤ infinity) (hb : b ≤ infinity)
include ha hb

/-- With two signs, the greater magnitude is the smaller double. -/
theorem compare_negative :
    (ofBits true a).toModel.unpack.compare (ofBits true b).toModel.unpack = some (compare b a) := by
  have hf := fractions_eq
  have hi := infinity_eq
  have hs : sign true = .negative := rfl
  rw [unpack_cases ha, unpack_cases hb, hs]
  split_ifs
  all_goals simp only [UnpackedFloat.compare, Option.some.injEq, hf] at *
  all_goals first
  | exact (compare_eq_iff_eq.mpr (by omega)).symm
  | exact (compare_lt_iff_lt.mpr (by omega)).symm
  | exact (compare_gt_iff_gt.mpr (by omega)).symm
  | rw [then_compare (a := a) (b := b) (by omega) (by omega) (by omega), Nat.compare_swap]

/-- A sign makes a double smaller than every one without, if not both are zero. -/
theorem compare_negative_positive :
    (ofBits true a).toModel.unpack.compare (ofBits false b).toModel.unpack =
    some (if a = 0 ∧ b = 0 then .eq else .lt) := by
  have hi := infinity_eq
  have hs : sign true = .negative := rfl
  have ht : sign false = .positive := rfl
  rw [unpack_cases ha, unpack_cases hb, hs, ht]
  split_ifs <;> first | rfl | omega

theorem compare_positive_negative :
    (ofBits false a).toModel.unpack.compare (ofBits true b).toModel.unpack =
    some (if a = 0 ∧ b = 0 then .eq else .gt) := by
  have hi := infinity_eq
  have hs : sign true = .negative := rfl
  have ht : sign false = .positive := rfl
  rw [unpack_cases ha, unpack_cases hb, hs, ht]
  split_ifs <;> first | rfl | omega

end

theorem value_ofBits {negative : Bool} {bits : Nat} (h : bits ≤ infinity) :
    value (ofBits negative bits) = (if negative then -1 else 1) * magnitude bits := by
  rw [value, isNegative_ofBits h, magnitudeBits_ofBits h]

theorem magnitudeBits_zero : magnitudeBits 0 = 0 := by decide +kernel

theorem value_zero : value 0 = 0 := by
  rw [value, magnitudeBits_zero, magnitude_zero, mul_zero]

theorem magnitude_pos_iff {bits : Nat} : 0 < magnitude bits ↔ bits ≠ 0 := by
  rw [← magnitude_zero, magnitude_lt_iff, Nat.pos_iff_ne_zero]

theorem exists_ofBits {x : Float} (h : x.isNaN = false) :
    ∃ negative bits, bits ≤ infinity ∧ x = ofBits negative bits :=
  ⟨_, _, magnitudeBits_le h, (ofBits_magnitudeBits x).symm⟩

theorem compare_magnitude (a b : Nat) : compare (magnitude a) (magnitude b) = compare a b := by
  rcases Nat.lt_trichotomy a b with h | h | h
  · rw [compare_lt_iff_lt.mpr h, compare_lt_iff_lt.mpr (magnitude_lt_iff.mpr h)]
  · rw [compare_eq_iff_eq.mpr h, compare_eq_iff_eq.mpr (magnitude_inj.mpr h)]
  · rw [compare_gt_iff_gt.mpr h, compare_gt_iff_gt.mpr (magnitude_lt_iff.mpr h)]

theorem compare_neg_neg (p q : ℚ) : compare (-p) (-q) = compare q p := by
  rcases lt_trichotomy q p with h | h | h
  · rw [compare_lt_iff_lt.mpr h, compare_lt_iff_lt.mpr (neg_lt_neg h)]
  · rw [compare_eq_iff_eq.mpr h, compare_eq_iff_eq.mpr (congrArg Neg.neg h.symm)]
  · rw [compare_gt_iff_gt.mpr h, compare_gt_iff_gt.mpr (neg_lt_neg h)]

/-- Numbers compare as their values. -/
theorem compare_eq {x y : Float} (hx : x.isNaN = false) (hy : y.isNaN = false) :
    x.toModel.unpack.compare y.toModel.unpack = some (compare (value x) (value y)) := by
  obtain ⟨s, a, ha, rfl⟩ := exists_ofBits hx
  obtain ⟨t, b, hb, rfl⟩ := exists_ofBits hy
  have hzero : a = 0 ∧ b = 0 → magnitude a = 0 ∧ magnitude b = 0 := by
    rintro ⟨rfl, rfl⟩
    exact ⟨magnitude_zero, magnitude_zero⟩
  have hpos : ¬ (a = 0 ∧ b = 0) → 0 < magnitude a + magnitude b := by
    intro h
    rcases not_and_or.mp h with h | h
    · exact add_pos_of_pos_of_nonneg (magnitude_pos_iff.mpr h) (magnitude_nonneg b)
    · exact add_pos_of_nonneg_of_pos (magnitude_nonneg a) (magnitude_pos_iff.mpr h)
  rw [value_ofBits ha, value_ofBits hb]
  cases s <;> cases t <;> simp only [Bool.false_eq_true, if_false, if_true, one_mul, neg_one_mul]
  · rw [compare_ofBits ha hb, compare_magnitude]
  · rw [compare_positive_negative ha hb]
    split
    · rename_i h
      rw [(hzero h).1, (hzero h).2, neg_zero, compare_eq_iff_eq.mpr rfl]
    · rename_i h
      rw [compare_gt_iff_gt.mpr (by linarith [hpos h])]
  · rw [compare_negative_positive ha hb]
    split
    · rename_i h
      rw [(hzero h).1, (hzero h).2, neg_zero, compare_eq_iff_eq.mpr rfl]
    · rename_i h
      rw [compare_lt_iff_lt.mpr (by linarith [hpos h])]
  · rw [compare_negative ha hb, compare_neg_neg, compare_magnitude]

section

variable {x y : Float} (hx : x.isNaN = false) (hy : y.isNaN = false)
include hx hy

theorem le_iff_value : x ≤ y ↔ value x ≤ value y := by
  rw [le_iff_compare, compare_eq hx hy, Option.any_some, ← not_lt, ← compare_gt_iff_gt]
  cases compare (value x) (value y) <;> decide

theorem lt_iff_value : x < y ↔ value x < value y := by
  have h : x < y ↔ (x.toModel.unpack.compare y.toModel.unpack == some .lt) = true := by
    show decide ((x.toModel.unpack.compare y.toModel.unpack == some .lt) = true) = true ↔ _
    rw [decide_eq_true_iff]
  rw [h, compare_eq hx hy, beq_iff_eq, Option.some.injEq, compare_lt_iff_lt]

end

/-- What is not a number is not in the order. -/
theorem isNaN_of_le {x y : Float} (h : x ≤ y) : x.isNaN = false ∧ y.isNaN = false := by
  rw [le_iff_compare] at h
  show x.toModel.unpack.isNaN = false ∧ y.toModel.unpack.isNaN = false
  cases hx : x.toModel.unpack <;> cases hy : y.toModel.unpack <;>
    simp_all [UnpackedFloat.compare, UnpackedFloat.isNaN]

/-- A double that is not below zero is its magnitude. -/
theorem value_of_nonneg {x : Float} (hx : 0 ≤ x) : value x = magnitude (magnitudeBits x) := by
  obtain ⟨h0, hn⟩ := isNaN_of_le hx
  have hle := (le_iff_value h0 hn).mp hx
  have hpos := magnitude_nonneg (magnitudeBits x)
  rw [value_zero, value] at hle
  rw [value]
  split
  · rename_i hnegative
    rw [if_pos hnegative] at hle
    linarith
  · exact one_mul _

end DeskCalculator.Binary64
