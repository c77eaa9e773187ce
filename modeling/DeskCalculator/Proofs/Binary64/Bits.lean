import DeskCalculator.Proofs.Binary64.NotANumber

/-!
# Doubles as signs and magnitudes

A double is its sign with the bits of its magnitude. What is not a number lies above infinity; below
it the bits are ordered as the magnitudes are, and a sign changes nothing about them.
-/

namespace DeskCalculator.Binary64

open Float.Model Float.Model.UnpackedFloat

theorem fractions_eq : fractions = 2 ^ 52 := rfl

theorem signBit_eq : signBit = 2 ^ 63 := rfl

theorem infinity_eq : infinity = 2047 * 2 ^ 52 := rfl

/-! ## Sign and magnitude -/

theorem toNat_toBits (x : Float) :
    x.toBits.toNat = (if isNegative x then signBit else 0) + magnitudeBits x := by
  have hlt : x.toBits.toNat < 2 * signBit := x.toBits.toNat_lt
  by_cases h : signBit ≤ x.toBits.toNat
  · simp only [isNegative, magnitudeBits, h, decide_true, if_true]
    rw [Nat.mod_eq_sub_mod h, Nat.mod_eq_of_lt (by omega)]
    omega
  · simp only [isNegative, magnitudeBits, h, decide_false, Bool.false_eq_true, if_false, Nat.zero_add]
    rw [Nat.mod_eq_of_lt (by omega)]

@[simp] theorem ofBits_magnitudeBits (x : Float) : ofBits (isNegative x) (magnitudeBits x) = x := by
  have h := toNat_toBits x
  unfold ofBits
  split at h
  · rename_i hn
    rw [if_pos hn, ← h, UInt64.ofNat_toNat, Float.ofBits_toBits]
  · rename_i hn
    rw [if_neg hn, ← Nat.zero_add (magnitudeBits x), ← h, UInt64.ofNat_toNat, Float.ofBits_toBits]

/-! ## Fields -/

def sign (negative : Bool) : Sign := if negative then .negative else .positive

def exponentField (bits : Nat) : BitVec 11 := BitVec.ofNat 11 (bits / fractions)

def mantissaField (bits : Nat) : BitVec 52 := BitVec.ofNat 52 (bits % fractions)

section

variable {negative : Bool} {bits : Nat}

theorem exponentField_eq_max_iff (h : bits ≤ infinity) :
    exponentField bits = -1#11 ↔ infinity ≤ bits := by
  rw [← BitVec.toNat_inj, exponentField, BitVec.toNat_ofNat, fractions_eq]
  rw [infinity_eq] at h ⊢
  show _ = 2047 ↔ _
  omega

theorem exponentField_eq_zero_iff (h : bits ≤ infinity) :
    exponentField bits = 0#11 ↔ bits < fractions := by
  rw [← BitVec.toNat_inj, exponentField, BitVec.toNat_ofNat, fractions_eq]
  rw [infinity_eq] at h
  show _ = 0 ↔ _
  omega

theorem toNat_exponentField (h : bits ≤ infinity) : (exponentField bits).toNat = bits / fractions := by
  rw [exponentField, BitVec.toNat_ofNat, fractions_eq]
  rw [infinity_eq] at h
  omega

theorem toNat_mantissaField (bits : Nat) : (mantissaField bits).toNat = bits % fractions := by
  rw [mantissaField, BitVec.toNat_ofNat, fractions_eq, Nat.mod_mod]

theorem mantissaField_eq_zero_iff : mantissaField bits = 0#52 ↔ bits % fractions = 0 := by
  rw [← BitVec.toNat_inj, toNat_mantissaField]
  rfl

/-- Up to infinity the fields are those of a number. -/
theorem mantissaField_eq_zero (h : bits ≤ infinity) (he : exponentField bits = -1#11) :
    mantissaField bits = 0#52 := by
  obtain rfl : bits = infinity := Nat.le_antisymm h ((exponentField_eq_max_iff h).mp he)
  rfl

variable (h : bits ≤ infinity)
include h

theorem toBitVec_ofBits : (UInt64.ofNat (if negative then signBit + bits else bits)).toBitVec =
    packComponents Format.binary64 (sign negative) (exponentField bits) (mantissaField bits) := by
  rw [infinity_eq] at h
  apply BitVec.eq_of_toNat_eq
  rw [toNat_packComponents, toNat_mantissaField, toNat_exponentField h, UInt64.toNat_toBitVec,
    UInt64.toNat_ofNat', signBit_eq, fractions_eq]
  cases negative with
  | true =>
      have : (sign true).toBitVec.toNat = 1 := rfl
      rw [this, if_pos rfl]
      omega
  | false =>
      have : (sign false).toBitVec.toNat = 0 := rfl
      rw [this, if_neg Bool.false_ne_true]
      omega

theorem unpack_ofBits : (ofBits negative bits).toModel.unpack =
    ofFields (sign negative) (exponentField bits) (mantissaField bits) := by
  show UnpackedFloat.unpack Format.binary64
      (UnpackedFloat.pack Format.binary64 (UnpackedFloat.unpack Format.binary64
    (UInt64.ofNat (if negative then signBit + bits else bits)).toBitVec)) = _
  rw [toBitVec_ofBits h]
  exact unpack_pack_ofFields _ _ _

theorem toNat_toBits_ofBits :
    (ofBits negative bits).toBits.toNat = if negative then signBit + bits else bits := by
  have hn : ¬ (exponentField bits = -1#11 ∧ mantissaField bits ≠ 0#52) :=
    fun he => he.2 (mantissaField_eq_zero h he.1)
  show (UInt64.ofBitVec (UnpackedFloat.pack Format.binary64 (UnpackedFloat.unpack Format.binary64
    (UInt64.ofNat (if negative then signBit + bits else bits)).toBitVec))).toNat = _
  rw [toBitVec_ofBits h]
  change (UnpackedFloat.pack Format.binary64 (ofFields _ _ _)).toNat = _
  rw [pack_ofFields hn, ← toBitVec_ofBits h, UInt64.toNat_toBitVec, UInt64.toNat_ofNat', signBit_eq]
  rw [infinity_eq] at h
  split <;> omega

theorem isNegative_ofBits : isNegative (ofBits negative bits) = negative := by
  rw [isNegative, toNat_toBits_ofBits h]
  rw [infinity_eq] at h
  cases negative with
  | true => simp
  | false => simpa [signBit_eq] using by omega

theorem magnitudeBits_ofBits : magnitudeBits (ofBits negative bits) = bits := by
  rw [magnitudeBits, toNat_toBits_ofBits h, signBit_eq]
  rw [infinity_eq] at h
  split <;> omega

theorem unpack_cases : (ofBits negative bits).toModel.unpack =
    if bits = infinity then .infinity (sign negative)
    else if h0 : bits = 0 then .zero (sign negative)
    else if bits < fractions then .finite (sign negative) bits (-1074) (Nat.pos_of_ne_zero h0)
    else .finite (sign negative) (fractions + bits % fractions) ((bits / fractions : Nat) - 1075)
      (Nat.add_pos_left (by decide) _) := by
  have hm := toNat_mantissaField bits
  rw [unpack_ofBits h, ofFields_eq]
  by_cases hi : bits = infinity
  · have he := (exponentField_eq_max_iff h).mpr hi.ge
    rw [if_pos he, if_pos (mantissaField_eq_zero h he), if_pos hi]
  rw [if_neg (fun he => hi (Nat.le_antisymm h ((exponentField_eq_max_iff h).mp he))), if_neg hi]
  by_cases hs : bits < fractions
  · have he := (exponentField_eq_zero_iff h).mpr hs
    have hmod : bits % fractions = bits := Nat.mod_eq_of_lt hs
    rw [if_pos he]
    by_cases h0 : bits = 0
    · rw [dif_pos (mantissaField_eq_zero_iff.mpr (hmod.trans h0)), dif_pos h0]
    · rw [dif_neg (fun hz => h0 (hmod.symm.trans (mantissaField_eq_zero_iff.mp hz))), dif_neg h0,
        if_pos hs]
      simp [hm, hmod, he]
  · have h0 : bits ≠ 0 := by
      rintro rfl
      exact hs (by decide)
    rw [if_neg (fun he => hs ((exponentField_eq_zero_iff h).mp he)), dif_neg h0, if_neg hs]
    simp only [toNat_one_append, hm, toNat_exponentField h, fractions_eq]

end

/-! ## Kinds of doubles -/

theorem isNaN_eq (x : Float) : x.isNaN = decide (infinity < magnitudeBits x) := by
  obtain ⟨s, e, m, hb, hu⟩ := exists_ofFields x.toModel.toBits.toBitVec
  have hbits : x.toBits.toNat = (s.toBitVec.toNat * 2 ^ 11 + e.toNat) * 2 ^ 52 + m.toNat := by
    rw [← toNat_packComponents, ← hb]
    rfl
  have hm : m.toNat < 2 ^ 52 := m.isLt
  have he : e.toNat < 2 ^ 11 := e.isLt
  have hmag : magnitudeBits x = e.toNat * 2 ^ 52 + m.toNat := by
    rw [magnitudeBits, hbits, signBit_eq]
    omega
  show (UnpackedFloat.unpack Format.binary64 x.toModel.toBits.toBitVec).isNaN = _
  rw [hu, isNaN_ofFields, decide_eq_decide, hmag, infinity_eq, ← BitVec.toNat_inj, ne_eq,
    ← BitVec.toNat_inj]
  show e.toNat = 2047 ∧ ¬ m.toNat = 0 ↔ _
  omega

theorem magnitudeBits_le {x : Float} (h : x.isNaN = false) : magnitudeBits x ≤ infinity := by
  rw [isNaN_eq, decide_eq_false_iff_not] at h
  omega

theorem isInf_ofBits {negative : Bool} {bits : Nat} (h : bits ≤ infinity) :
    (ofBits negative bits).isInf = decide (bits = infinity) := by
  show (ofBits negative bits).toModel.unpack.isInf = _
  rw [unpack_cases h]
  split_ifs with hi <;> simp [hi, UnpackedFloat.isInf]

theorem isFinite_ofBits {negative : Bool} {bits : Nat} (h : bits ≤ infinity) :
    (ofBits negative bits).isFinite = decide (bits ≠ infinity) := by
  show (ofBits negative bits).toModel.unpack.isFinite = _
  rw [unpack_cases h]
  split_ifs with hi <;> simp [hi, UnpackedFloat.isFinite]

theorem isNaN_of_isFinite {x : Float} (h : x.isFinite = true) : x.isNaN = false := by
  change x.toModel.unpack.isFinite = true at h
  show x.toModel.unpack.isNaN = false
  cases hu : x.toModel.unpack <;> simp_all [UnpackedFloat.isFinite, UnpackedFloat.isNaN]

theorem isFinite_iff {x : Float} : x.isFinite = true ↔ magnitudeBits x < infinity := by
  cases hn : x.isNaN with
  | true =>
      have hlt : infinity < magnitudeBits x := decide_eq_true_iff.mp (isNaN_eq x ▸ hn)
      refine ⟨fun h => ?_, fun h => absurd h (by omega)⟩
      rw [isNaN_of_isFinite h] at hn
      cases hn
  | false =>
      have hle := magnitudeBits_le hn
      rw [← ofBits_magnitudeBits x, isFinite_ofBits hle, magnitudeBits_ofBits hle, decide_eq_true_iff]
      omega

theorem isInf_of_isFinite {x : Float} (h : x.isFinite = true) : x.isInf = false := by
  change x.toModel.unpack.isFinite = true at h
  show x.toModel.unpack.isInf = false
  cases hu : x.toModel.unpack <;> simp_all [UnpackedFloat.isFinite, UnpackedFloat.isInf]

theorem isInf_eq_not_isFinite {x : Float} (h : x.isNaN = false) : x.isInf = !x.isFinite := by
  have hle := magnitudeBits_le h
  rw [← ofBits_magnitudeBits x, isInf_ofBits hle, isFinite_ofBits hle]
  simp

/-! ## Signs -/

theorem eq_of_unpack {x y : Float} (h : x.toModel.unpack = y.toModel.unpack) : x = y := by
  show Float.ofModel x.toModel = Float.ofModel y.toModel
  rw [← pack_unpack x.toModel, h, pack_unpack]

theorem neg_ofBits {negative : Bool} {bits : Nat} (h : bits ≤ infinity) :
    -ofBits negative bits = ofBits (!negative) bits := by
  have hs : -sign negative = sign (!negative) := by cases negative <;> rfl
  apply eq_of_unpack
  rw [unpack_neg, unpack_ofBits h, unpack_ofBits h, neg_ofFields, hs]

theorem abs_ofFields (s : Sign) (e : BitVec 11) (m : BitVec 52) :
    (ofFields s e m).abs = ofFields .positive e m := by
  simp only [ofFields_eq]
  split_ifs <;> rfl

theorem abs_ofBits {negative : Bool} {bits : Nat} (h : bits ≤ infinity) :
    (ofBits negative bits).abs = ofBits false bits := by
  apply eq_of_unpack
  show UnpackedFloat.unpack Format.binary64
      (UnpackedFloat.pack Format.binary64 (ofBits negative bits).toModel.unpack.abs) = _
  rw [unpack_ofBits h, unpack_ofBits h, abs_ofFields, unpack_pack_ofFields]
  rfl

/-! ## Order -/

theorem then_compare {d e : Int} {m n a b : Nat} (hlt : a < b → d < e ∨ d = e ∧ m < n)
    (heq : a = b → d = e ∧ m = n) (hgt : b < a → e < d ∨ d = e ∧ n < m) :
    (compare d e).then (compare m n) = compare a b := by
  rcases Nat.lt_trichotomy a b with h | h | h
  · rw [compare_lt_iff_lt.mpr h, Ordering.then_eq_lt, compare_lt_iff_lt, compare_eq_iff_eq,
      compare_lt_iff_lt]
    exact hlt h
  · rw [compare_eq_iff_eq.mpr h, Ordering.then_eq_eq, compare_eq_iff_eq, compare_eq_iff_eq]
    exact heq h
  · rw [compare_gt_iff_gt.mpr h, Ordering.then_eq_gt, compare_gt_iff_gt, compare_eq_iff_eq,
      compare_gt_iff_gt]
    exact hgt h

/-- Without signs, doubles are ordered as their bits. -/
theorem compare_ofBits {a b : Nat} (ha : a ≤ infinity) (hb : b ≤ infinity) :
    (ofBits false a).toModel.unpack.compare (ofBits false b).toModel.unpack = some (compare a b) := by
  have hf := fractions_eq
  have hi := infinity_eq
  have hs : sign false = .positive := rfl
  rw [unpack_cases ha, unpack_cases hb, hs]
  split_ifs
  all_goals simp only [UnpackedFloat.compare, Option.some.injEq, hf] at *
  all_goals first
  | exact (compare_eq_iff_eq.mpr (by omega)).symm
  | exact (compare_lt_iff_lt.mpr (by omega)).symm
  | exact (compare_gt_iff_gt.mpr (by omega)).symm
  | exact then_compare (by omega) (by omega) (by omega)

theorem le_iff_compare {x y : Float} :
    x ≤ y ↔ (x.toModel.unpack.compare y.toModel.unpack).any (·.isLE) = true := by
  show decide ((x.toModel.unpack.compare y.toModel.unpack).any (·.isLE) = true) = true ↔ _
  rw [decide_eq_true_iff]

theorem ofBits_le_abs {bits : Nat} {x : Float} (h : bits ≤ infinity) (hx : x.isNaN = false) :
    ofBits false bits ≤ x.abs ↔ bits ≤ magnitudeBits x := by
  have hle := magnitudeBits_le hx
  conv => lhs; rw [← ofBits_magnitudeBits x, abs_ofBits hle]
  rw [le_iff_compare, compare_ofBits h hle, Option.any_some]
  exact Nat.isLE_compare

end DeskCalculator.Binary64
