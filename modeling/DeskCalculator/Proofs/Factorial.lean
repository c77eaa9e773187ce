import DeskCalculator.Factorial
import DeskCalculator.Proofs.Binary64.Order
import DeskCalculator.Proofs.Binary64.Arithmetic

/-!
# Factorials

A positive double does not become smaller when it is multiplied by a whole number, so the products grow up to
infinity and stay there: the loop that ends at the first infinite product gives what the loop without that
end would give. Its counter and its bound are doubles. The product is infinite long before the counter is too
large to be increased.
-/

namespace DeskCalculator.Factorial

open Binary64

/-! ## Products of whole numbers -/

/-- The product with a whole number, rounded. -/
def times (product : Float) (i : Nat) : Float := product * Float.ofNat i

/-- The product of the whole numbers from two on, each step rounded, whether it is infinite or not. -/
def wholeProduct (n : Nat) : Float := (List.range' 2 (n - 1)).foldl times 1

section

variable {bits : Nat} (h0 : bits ≠ 0) (h : bits ≤ infinity)
include h0 h

/-- A positive double does not become smaller. -/
theorem exists_times {i : Nat} (hi : 1 ≤ i) :
    ∃ bits', bits ≤ bits' ∧ bits' ≤ infinity ∧ times (ofBits false bits) i = ofBits false bits' := by
  obtain ⟨factor, hf, hnear⟩ := isNearest_ofNat i
  obtain ⟨one, hone, hone0, -, hm⟩ := exists_one
  have hle : one ≤ factor := hnear.le_of_magnitude_le hone.le (by rw [hm]; exact_mod_cast hi)
  have hf0 : factor ≠ 0 := by omega
  rw [times, hf]
  rcases h.lt_or_eq with hlt | rfl
  · rcases hnear.1.lt_or_eq with hflt | rfl
    · obtain ⟨bits', he, hnear'⟩ := isNearest_mul false false hlt hflt
      refine ⟨bits', hnear'.le_of_magnitude_le h ?_, hnear'.1, he⟩
      exact le_mul_of_one_le_right (magnitude_nonneg bits) (hm ▸ magnitude_le_iff.mpr hle)
    · exact ⟨infinity, h, le_rfl, mul_infinity false false hlt h0⟩
  · exact ⟨infinity, le_rfl, le_rfl, infinity_mul false false hnear.1 hf0⟩

theorem exists_foldl_times (l : List Nat) (hl : ∀ i ∈ l, 1 ≤ i) :
    ∃ bits', bits ≤ bits' ∧ bits' ≤ infinity ∧
      l.foldl times (ofBits false bits) = ofBits false bits' := by
  induction l generalizing bits with
  | nil => exact ⟨bits, le_rfl, h, rfl⟩
  | cons i l ih =>
      obtain ⟨b, hle, hb, he⟩ := exists_times h0 h (hl i (by simp))
      obtain ⟨b', hle', hb', he'⟩ := ih (by omega) hb fun j hj => hl j (by simp [hj])
      exact ⟨b', hle.trans hle', hb', by rw [List.foldl_cons, he, he']⟩

end

/-- An infinite product stays infinite. -/
theorem foldl_times_infinity (l : List Nat) (hl : ∀ i ∈ l, 1 ≤ i) :
    l.foldl times (ofBits false infinity) = ofBits false infinity := by
  obtain ⟨bits, hle, hb, he⟩ := exists_foldl_times (by decide) le_rfl l hl
  rw [he, le_antisymm hb hle]

theorem le_of_mem_range' {i count j : Nat} (hi : 1 ≤ i) (hj : j ∈ List.range' i count) : 1 ≤ j := by
  rw [List.mem_range'_1] at hj
  omega

/-- So the end at the first infinite product changes nothing. -/
theorem risingProduct_eq_foldl {bits : Nat} (h0 : bits ≠ 0) (h : bits ≤ infinity) {i : Nat} (hi : 1 ≤ i)
    (count : Nat) :
    risingProduct count i (ofBits false bits) =
      (List.range' i count).foldl times (ofBits false bits) := by
  induction count generalizing bits i with
  | zero => rfl
  | succ count ih =>
      obtain ⟨bits', hle, hb, he⟩ := exists_times h0 h hi
      rw [List.range'_succ, List.foldl_cons, risingProduct]
      change (if (times (ofBits false bits) i).isInf then times (ofBits false bits) i
        else risingProduct count (i + 1) (times (ofBits false bits) i)) = _
      rw [he]
      split
      · rename_i hinf
        obtain rfl : bits' = infinity := by simpa [isInf_ofBits hb] using hinf
        rw [foldl_times_infinity _ fun j => le_of_mem_range' (by omega)]
      · exact ih (by omega) hb (by omega)

/-! ## Growth -/

theorem risingProduct_eq (n : Nat) : risingProduct (n - 1) 2 1 = wholeProduct n := by
  obtain ⟨one, hone, h0, h1, -⟩ := exists_one
  rw [h1, risingProduct_eq_foldl h0 hone.le (by decide), wholeProduct, h1]

/-- The longer product goes on where the shorter one ends. -/
theorem wholeProduct_eq_foldl {m n : Nat} (h : m ≤ n) :
    wholeProduct n = (List.range' (m - 1 + 2) (n - 1 - (m - 1))).foldl times (wholeProduct m) := by
  have hsplit :
      List.range' 2 (n - 1) = List.range' 2 (m - 1) ++ List.range' (m - 1 + 2) (n - 1 - (m - 1)) := by
    have hstart : m - 1 + 2 = 2 + 1 * (m - 1) := by omega
    rw [hstart, List.range'_append]
    congr 1
    omega
  rw [wholeProduct, hsplit, List.foldl_append]
  rfl

theorem wholeProduct_succ {n : Nat} (hn : 1 ≤ n) :
    wholeProduct (n + 1) = wholeProduct n * Float.ofNat (n + 1) := by
  have hstart : n - 1 + 2 = n + 1 := by omega
  have hcount : n + 1 - 1 - (n - 1) = 1 := by omega
  rw [wholeProduct_eq_foldl n.le_succ, hstart, hcount]
  rfl

/-- No product has a sign, and a longer one is not smaller. -/
theorem exists_wholeProduct {m n : Nat} (h : m ≤ n) : ∃ a b, a ≤ b ∧ b ≤ infinity ∧
    wholeProduct m = ofBits false a ∧ wholeProduct n = ofBits false b := by
  obtain ⟨one, hone, h0, h1, -⟩ := exists_one
  obtain ⟨a, hle, ha, he⟩ :=
    exists_foldl_times h0 hone.le (List.range' 2 (m - 1)) fun j => le_of_mem_range' (by decide)
  obtain ⟨b, hle', hb, he'⟩ :=
    exists_foldl_times (by omega) ha (List.range' (m - 1 + 2) (n - 1 - (m - 1)))
    fun j => le_of_mem_range' (by omega)
  have hm : wholeProduct m = ofBits false a := by rw [wholeProduct, h1, he]
  exact ⟨a, b, hle', hb, hm, by rw [wholeProduct_eq_foldl h, hm, he']⟩

theorem isNaN_wholeProduct (n : Nat) : (wholeProduct n).isNaN = false := by
  obtain ⟨a, b, hle, hb, he, -⟩ := exists_wholeProduct (le_refl n)
  rw [he, isNaN_ofBits (hle.trans hb)]

theorem wholeProduct_le {m n : Nat} (h : m ≤ n) : wholeProduct m ≤ wholeProduct n := by
  obtain ⟨a, b, hle, hb, he, he'⟩ := exists_wholeProduct h
  rw [le_iff_value (isNaN_wholeProduct m) (isNaN_wholeProduct n), he, he', value_ofBits (hle.trans hb),
    value_ofBits hb]
  simpa using magnitude_le_iff.mpr hle

theorem wholeProduct_170 : wholeProduct 170 = ofBits false 9197664872563836469 := by
  decide +kernel

theorem isFinite_wholeProduct_170 : (wholeProduct 170).isFinite = true := by
  rw [wholeProduct_170]
  decide +kernel

theorem isFinite_wholeProduct_171 : (wholeProduct 171).isFinite = false := by
  rw [wholeProduct_succ (n := 170) (by decide), wholeProduct_170]
  decide +kernel

theorem isFinite_wholeProduct_iff {n : Nat} : (wholeProduct n).isFinite = true ↔ n < 171 := by
  rcases Nat.lt_or_ge n 171 with hlt | hge
  · obtain ⟨a, b, hle, hb, he, he'⟩ := exists_wholeProduct (Nat.le_of_lt_succ hlt)
    have hfinite := isFinite_wholeProduct_170
    rw [he', isFinite_ofBits hb, decide_eq_true_iff] at hfinite
    rw [he, isFinite_ofBits (hle.trans hb), decide_eq_true_iff]
    exact iff_of_true (by omega) hlt
  · obtain ⟨a, b, hle, hb, he, he'⟩ := exists_wholeProduct hge
    have hinfinite := isFinite_wholeProduct_171
    rw [he, isFinite_ofBits (hle.trans hb), decide_eq_false_iff_not] at hinfinite
    rw [he', isFinite_ofBits hb, decide_eq_true_iff]
    exact iff_of_false (by omega) (Nat.not_lt.mpr hge)

theorem isInf_wholeProduct (n : Nat) : (wholeProduct n).isInf = decide (171 ≤ n) := by
  rw [isInf_eq_not_isFinite (isNaN_wholeProduct n), Bool.eq_iff_iff]
  simp [isFinite_wholeProduct_iff, ← Bool.not_eq_true]

/-- Of the products that are too long, all are the same. -/
theorem wholeProduct_of_le {n : Nat} (h : 171 ≤ n) : wholeProduct n = wholeProduct 171 := by
  obtain ⟨a, b, hle, hb, he, he'⟩ := exists_wholeProduct h
  have hinf := isInf_wholeProduct 171
  rw [he, isInf_ofBits (hle.trans hb)] at hinf
  obtain rfl : a = infinity := by simpa using hinf
  rw [he, he', le_antisymm hb hle]

/-! ## Whole parts -/

/-- The largest whole number that is not above the double, itself a double. -/
def IsFloor (x bound : Float) : Prop := bound.isNaN = false ∧ value bound = ⌊value x⌋₊

theorem wholePart_eq {x : Float} (hx : 0 ≤ x) : wholePart x = ⌊value x⌋₊ := by
  rw [value_of_nonneg hx, magnitude, Nat.floor_div_eq_div, wholePart, units]

/-- Doubles from `2 ^ 52` on are whole, and smaller whole parts are doubles. -/
theorem exists_isFloor {x : Float} (hx : 0 ≤ x) : ∃ bound, IsFloor x bound := by
  have hv := value_of_nonneg hx
  by_cases hlarge : 2 ^ (1074 + 52) ≤ unitsOfBits (magnitudeBits x)
  · obtain ⟨n, hn⟩ := pow_dvd_unitsOfBits hlarge
    have hwhole : magnitude (magnitudeBits x) = n :=
      magnitude_eq_natCast (by rw [hn, unitsPerOne_eq, Nat.mul_comm])
    exact ⟨x, (isNaN_of_le hx).2, by rw [hv, hwhole, Nat.floor_natCast]⟩
  · have hsmall : ⌊value x⌋₊ ≤ 2 ^ 53 := by
      rw [hv, magnitude, Nat.floor_div_eq_div, unitsPerOne_eq]
      refine Nat.div_le_of_le_mul ?_
      have hpow (k : Nat) : 2 ^ (k + 52) ≤ 2 ^ k * 2 ^ 53 := by
        rw [← Nat.pow_add]
        exact Nat.pow_le_pow_right two_pos (by omega)
      exact (Nat.le_of_not_le hlarge).trans (hpow 1074)
    obtain ⟨b, hb, hm⟩ := exists_magnitude_eq hsmall
    refine ⟨ofBits false b, isNaN_ofBits hb.le, ?_⟩
    rw [value_ofBits hb.le, hm]
    simp

/-! ## The loop -/

/-- The loop with doubles for its counter and its bound: how many turns it takes from here, and the
product that it leaves. -/
inductive Loop (bound : Float) : (counter product : Float) → (turns : Nat) → (result : Float) → Prop
  | ends {counter product : Float} (hbound : ¬ counter ≤ bound) : Loop bound counter product 0 product
  | overflows {counter product : Float} (hbound : counter ≤ bound)
      (hinf : (product * counter).isInf = true) : Loop bound counter product 1 (product * counter)
  | goesOn {counter product result : Float} {turns : Nat} (hbound : counter ≤ bound)
      (hinf : (product * counter).isInf = false)
      (rest : Loop bound (counter + 1) (product * counter) turns result) :
      Loop bound counter product (turns + 1) result

/-- The loop goes one way. -/
theorem Loop.unique {bound counter product result result' : Float} {turns turns' : Nat}
    (h : Loop bound counter product turns result) (h' : Loop bound counter product turns' result') :
    turns' = turns ∧ result' = result := by
  induction h generalizing turns' result' with
  | ends hbound =>
      cases h' with
      | ends => exact ⟨rfl, rfl⟩
      | overflows hbound' => exact absurd hbound' hbound
      | goesOn hbound' => exact absurd hbound' hbound
  | overflows hbound hinf =>
      cases h' with
      | ends hbound' => exact absurd hbound hbound'
      | overflows => exact ⟨rfl, rfl⟩
      | goesOn _ hinf' => simp [hinf] at hinf'
  | goesOn hbound hinf _ ih =>
      cases h' with
      | ends hbound' => exact absurd hbound hbound'
      | overflows _ hinf' => simp [hinf] at hinf'
      | goesOn _ _ rest =>
          obtain ⟨rfl, rfl⟩ := ih rest
          exact ⟨rfl, rfl⟩

theorem ofNat_le_iff {bound : Float} {i n : Nat} (hi : i ≤ 2 ^ 53) (hnan : bound.isNaN = false)
    (hbound : value bound = n) :
    Float.ofNat i ≤ bound ↔ i ≤ n := by
  obtain ⟨bits, hb, he, hm⟩ := ofNat_eq hi
  rw [he, le_iff_value (isNaN_ofBits hb.le) hnan, value_ofBits hb.le, hbound, hm]
  simp

/-- From a counter on, with the product of the numbers before it, the loop comes to the whole product.
Within the first 171 numbers it passes its bound or the product is infinite. -/
theorem exists_loop {bound : Float} {n : Nat} (hnan : bound.isNaN = false) (hbound : value bound = n)
    (k : Nat) {i : Nat} (hk : i + k = 170) (hi : 1 ≤ i) (hn : i ≤ n) :
    ∃ turns ≤ k + 1, Loop bound (Float.ofNat (i + 1)) (wholeProduct i) turns (wholeProduct n) := by
  induction k generalizing i with
  | zero =>
      obtain rfl : i = 170 := hk
      by_cases hlast : 171 ≤ n
      · have hle := (ofNat_le_iff (by decide) hnan hbound).mpr hlast
        have hinf : (wholeProduct 170 * Float.ofNat 171).isInf = true := by
          rw [← wholeProduct_succ (by decide), isInf_wholeProduct]
          rfl
        refine ⟨1, by decide, ?_⟩
        rw [wholeProduct_of_le hlast, wholeProduct_succ (n := 170) (by decide)]
        exact .overflows hle hinf
      · obtain rfl : n = 170 := by omega
        exact ⟨0, by decide, .ends fun hle => hlast ((ofNat_le_iff (by decide) hnan hbound).mp hle)⟩
  | succ k ih =>
      rcases hn.lt_or_eq with hlt | rfl
      · obtain ⟨turns, hturns, hloop⟩ := ih (i := i + 1) (by omega) (by omega) hlt
        have hle := (ofNat_le_iff (i := i + 1) (by omega) hnan hbound).mpr hlt
        have hfinite : (wholeProduct i * Float.ofNat (i + 1)).isInf = false := by
          rw [← wholeProduct_succ hi, isInf_wholeProduct]
          exact decide_eq_false (by omega)
        rw [← ofNat_add_one (n := i + 1) (by omega), wholeProduct_succ hi] at hloop
        exact ⟨turns + 1, by omega, .goesOn hle hfinite hloop⟩
      · exact ⟨0, by omega, .ends fun hle =>
          absurd ((ofNat_le_iff (by omega) hnan hbound).mp hle) (by omega)⟩

/-- The whole loop takes at most 170 turns, whatever its bound is. -/
theorem exists_whole_loop {bound : Float} {n : Nat} (hnan : bound.isNaN = false)
    (hbound : value bound = n) :
    ∃ turns ≤ 170, Loop bound 2 1 turns (wholeProduct n) := by
  rcases Nat.eq_zero_or_pos n with rfl | hn
  · exact ⟨0, by decide, .ends fun hle =>
      absurd ((ofNat_le_iff (i := 2) (by decide) hnan hbound).mp hle) (by decide)⟩
  · exact exists_loop hnan hbound 169 rfl le_rfl hn

/-! ## Factorials -/

theorem factorial_eq {x : Float} (hx : 0 ≤ x) : factorial x = wholeProduct ⌊value x⌋₊ := by
  obtain ⟨h0, hn⟩ := isNaN_of_le hx
  have hlt : ¬ x < 0 := by
    rw [lt_iff_value hn h0, not_lt]
    exact (le_iff_value h0 hn).mp hx
  have hguard : (x.isNaN || decide (x < 0)) = false := by rw [hn, decide_eq_false hlt, Bool.or_false]
  rw [factorial, hguard, if_neg Bool.false_ne_true, wholePart_eq hx, risingProduct_eq]

theorem value_171 : value 171 = 171 := by
  obtain ⟨bits, hb, he, hm⟩ := ofNat_eq (n := 171) (by decide)
  change (171 : Float) = _ at he
  rw [he, value_ofBits hb.le, hm]
  simp

/-- For an argument that is not below zero, the loop over doubles ends after at most 170 turns with the
factorial, which is the product of all whole numbers up to the whole part. So the factorial depends on
the whole part alone, does not decrease as the argument grows, is finite exactly below 171, and is always
a number. -/
theorem factorial_of_nonneg {x : Float} (hx : 0 ≤ x) :
    (∃ bound, IsFloor x bound) ∧
    (∀ bound, IsFloor x bound → ∃ turns ≤ 170, ∀ n result, Loop bound 2 1 n result ↔
      n = turns ∧ result = factorial x) ∧
    factorial x = wholeProduct ⌊value x⌋₊ ∧
    (∀ y, 0 ≤ y → ⌊value y⌋₊ = ⌊value x⌋₊ → factorial y = factorial x) ∧
    (∀ y, x ≤ y → factorial x ≤ factorial y) ∧
    ((factorial x).isFinite = true ↔ x < 171) ∧
    (factorial x).isNaN = false := by
  obtain ⟨h0, hn⟩ := isNaN_of_le hx
  have hx0 := (le_iff_value h0 hn).mp hx
  have heq := factorial_eq hx
  refine ⟨exists_isFloor hx, ?_, heq, ?_, ?_, ?_, ?_⟩
  · intro bound hbound
    obtain ⟨turns, hturns, hloop⟩ := exists_whole_loop hbound.1 hbound.2
    rw [← heq] at hloop
    refine ⟨turns, hturns, ?_⟩
    intro n result
    constructor
    · exact hloop.unique
    · rintro ⟨rfl, rfl⟩
      exact hloop
  · intro y hy hxy
    rw [factorial_eq hy, heq, hxy]
  · intro y hxy
    have hny := (isNaN_of_le hxy).2
    have hvalue := (le_iff_value hn hny).mp hxy
    have hy : 0 ≤ y := (le_iff_value h0 hny).mpr (hx0.trans hvalue)
    rw [heq, factorial_eq hy]
    exact wholeProduct_le (Nat.floor_le_floor hvalue)
  · have hnan : (171 : Float).isNaN = false := by decide +kernel
    rw [value_zero] at hx0
    rw [heq, isFinite_wholeProduct_iff, lt_iff_value hn hnan, value_171, Nat.floor_lt hx0,
      Nat.cast_ofNat]
  · rw [heq, isNaN_wholeProduct]

/-- Infinity is its own bound; the product is infinite before the counter could come near to it. -/
theorem factorial_of_infinity :
    0 ≤ ofBits false infinity ∧ IsFloor (ofBits false infinity) (ofBits false infinity) ∧
    (∃ turns ≤ 170, ∀ n result, Loop (ofBits false infinity) 2 1 n result ↔
      n = turns ∧ result = factorial (ofBits false infinity)) ∧
    (factorial (ofBits false infinity)).isFinite = false ∧
    (factorial (ofBits false infinity)).isNaN = false := by
  have hx : 0 ≤ ofBits false infinity := by decide +kernel
  have hfloor : IsFloor (ofBits false infinity) (ofBits false infinity) := by
    refine ⟨by decide +kernel, ?_⟩
    have hvalue : value (ofBits false infinity) = (2 ^ 1024 : Nat) := by
      rw [value_ofBits le_rfl, if_neg Bool.false_ne_true, one_mul]
      exact magnitude_eq_natCast (by decide +kernel)
    rw [hvalue, Nat.floor_natCast]
  obtain ⟨-, hloop, -, -, -, hfinite, hnan⟩ := factorial_of_nonneg hx
  refine ⟨hx, hfloor, hloop _ hfloor, ?_, hnan⟩
  rw [← Bool.not_eq_true, hfinite]
  decide +kernel

end DeskCalculator.Factorial
