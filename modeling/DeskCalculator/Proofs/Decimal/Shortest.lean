import DeskCalculator.Decimal.Shortest
import DeskCalculator.Proofs.Decimal.Value

/-!
# The fewest digits read back

Whatever the search for the fewest digits finds is nearest to the double, and without a find the
double itself is written.
-/

namespace DeskCalculator.Decimal

open Binary64

theorem readsBack_of_withPlaces? {bits places : Nat} {d : Decimal}
    (h : withPlaces? bits places = some d) :
    d.readsBack bits = true := by
  unfold withPlaces? at h
  dsimp only at h
  split at h
  · rename_i hbelow habove
    split at h <;> cases h <;> assumption
  · rename_i hbelow _
    cases h
    exact hbelow
  · rename_i _ habove
    cases h
    exact habove
  · cases h

theorem value_mul_five_pow (n p : Nat) : value ⟨n * Nat.pow 5 p, -p⟩ = n / 2 ^ p := by
  have hten : (10 : ℚ) = 2 * 5 := by norm_num
  rw [value, zpow_neg, zpow_natCast, hten, mul_pow, Nat.pow_eq]
  push_cast
  field_simp

theorem value_exact (bits : Nat) : (exact bits).value = magnitude bits := by
  have he : exact bits = ⟨unitsOfBits bits * Nat.pow 5 1074, -(1074 : Nat)⟩ := rfl
  have hu := unitsPerOne_eq
  generalize 1074 = p at he hu
  rw [he, magnitude, hu, value_mul_five_pow, Nat.cast_pow, Nat.cast_ofNat]

theorem bitsOfDecimal_exact {bits : Nat} (h : bits ≤ infinity) : bitsOfDecimal (exact bits) = bits := by
  have hnear := isNearest_bitsOfDecimal (exact bits)
  rw [value_exact] at hnear
  exact (isNearest_magnitude h).unique hnear

theorem bitsOfDecimal_shortest {bits : Nat} (h : bits ≤ infinity) :
    bitsOfDecimal (shortest bits) = bits := by
  unfold shortest
  cases hs : (List.range 17).findSome? fun i => withPlaces? bits (i + 1) with
  | none => exact bitsOfDecimal_exact h
  | some d =>
      obtain ⟨i, -, hd⟩ := List.exists_of_findSome?_eq_some hs
      exact beq_iff_eq.mp (readsBack_of_withPlaces? hd)

end DeskCalculator.Decimal
