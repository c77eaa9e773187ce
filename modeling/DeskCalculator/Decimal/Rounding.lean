import DeskCalculator.Decimal

/-!
# Rounding of quotients

A quotient of natural numbers goes to the nearest whole number, or to a given count of significant
digits. The two rules differ only on a half: up, or to the even neighbour.
-/

namespace DeskCalculator

/-- Nearest to `n / d`, a half goes up. -/
def roundHalfUp (n d : Nat) : Nat :=
  (2 * n + d) / (2 * d)

/-- Nearest to `n / d`, a half goes to the even neighbour. -/
def roundHalfEven (n d : Nat) : Nat :=
  let q := n / d
  let r := n % d
  if 2 * r < d then q else if d < 2 * r then q + 1 else q + q % 2

theorem roundHalfEven_of_dvd {n d : Nat} (hd : 0 < d) (h : d ∣ n) : roundHalfEven n d = n / d := by
  simp [roundHalfEven, Nat.mod_eq_zero_of_dvd h, hd]

namespace Decimal

/-- The power of ten of the first digit of `n / d`, for positive `n` and `d`. -/
def leadingExponentOfRatio (n d : Nat) : Int :=
  if d ≤ n then (Nat.toDigits 10 (n / d)).length - 1 else -(Nat.toDigits 10 ((d - 1) / n)).length

/-- The quotient `n / d` counted in units of `10 ^ k`. -/
def inUnits (n d : Nat) (k : Int) : Nat × Nat :=
  (n * Nat.pow 10 (-k).toNat, d * Nat.pow 10 k.toNat)

/-- `n / d` with `places` significant digits, a half going to the even neighbour. -/
def significant (places n d : Nat) : Decimal :=
  let k := leadingExponentOfRatio n d - (places - 1)
  let (n', d') := inUnits n d k
  ⟨roundHalfEven n' d', k⟩

end Decimal

end DeskCalculator
