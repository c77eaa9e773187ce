/-!
# Decimal numbers

A natural number of units of a power of ten, and its two layouts. Neither layout keeps a zero at the
end of a fraction, and neither leaves a point at the end.
-/

namespace DeskCalculator

/-- `digits · 10 ^ exponent` -/
structure Decimal where
  digits : Nat
  exponent : Int
deriving DecidableEq, Repr

namespace Decimal

/-! ## Fractions -/

def dropTrailingZeros (digits : List Char) : List Char :=
  (digits.reverse.dropWhile (· == '0')).reverse

/-- The digits of `n / 10 ^ places` behind the point, for `n < 10 ^ places`. -/
def fractionDigits (n places : Nat) : List Char :=
  let digits := Nat.toDigits 10 n
  dropTrailingZeros (List.replicate (places - digits.length) '0' ++ digits)

/-- The number `n / 10 ^ places`, with a point only before a fraction. -/
def pointed (n places : Nat) : List Char :=
  let fraction := fractionDigits (n % Nat.pow 10 places) places
  Nat.toDigits 10 (n / Nat.pow 10 places) ++ if fraction.isEmpty then [] else '.' :: fraction

/-! ## Layouts -/

/-- The power of ten of the first digit. -/
def leadingExponent (d : Decimal) : Int :=
  (Nat.toDigits 10 d.digits).length - 1 + d.exponent

/-- All places written out, without an exponent. -/
def plain (d : Decimal) : List Char :=
  pointed (d.digits * Nat.pow 10 d.exponent.toNat) (-d.exponent).toNat

/-- One digit before the point, and an exponent that always shows its sign. -/
def scientific (d : Decimal) : List Char :=
  let e := d.leadingExponent
  pointed d.digits ((Nat.toDigits 10 d.digits).length - 1) ++
    'e' :: (if e < 0 then '-' else '+') :: Nat.toDigits 10 e.natAbs

end Decimal

end DeskCalculator
