import DeskCalculator.Decimal.Rounding

/-!
# Doubles as whole numbers of units

Every finite double is a whole number of units of `2 ^ -1074`, with a sign. Without the sign bit,
the bits of the doubles are numbered in the order of their magnitudes: the finite ones lie below
`infinity`, and what is not a number above.
-/

namespace DeskCalculator.Binary64

/-! ## From bits to units -/

/-- The count of fractions that share an exponent. -/
def fractions : Nat := Nat.pow 2 52

def signBit : Nat := Nat.pow 2 63

/-- The bits of infinity, without a sign. -/
def infinity : Nat := 2047 * fractions

/-- How many units make one. -/
def unitsPerOne : Nat := Nat.pow 2 1074

/-- The magnitude of a finite double in units, from its bits without the sign. -/
def unitsOfBits (bits : Nat) : Nat :=
  if bits < fractions then bits
  else (fractions + bits % fractions) * Nat.pow 2 (bits / fractions - 1)

def isNegative (x : Float) : Bool :=
  signBit ≤ x.toBits.toNat

/-- The bits without the sign. -/
def magnitudeBits (x : Float) : Nat :=
  x.toBits.toNat % signBit

def units (x : Float) : Nat :=
  unitsOfBits (magnitudeBits x)

def wholePart (x : Float) : Nat :=
  units x / unitsPerOne

/-! ## From numbers to bits -/

def ofBits (negative : Bool) (bits : Nat) : Float :=
  Float.ofBits (UInt64.ofNat (if negative then signBit + bits else bits))

/-- The double nearest to `n / d` units, a half going to the even neighbour; beyond the largest
double, infinity. -/
def nearestBits (n d : Nat) : Nat :=
  let step := (n / d).log2 - 52
  min infinity (step * fractions + roundHalfEven n (d * Nat.pow 2 step))

/-- The double nearest to a decimal number. Far outside the range of doubles the answer is known
without the number. -/
def bitsOfDecimal (d : Decimal) : Nat :=
  let size := d.leadingExponent
  if d.digits = 0 ∨ size < -400 then 0
  else if 400 < size then infinity
  else nearestBits (d.digits * Nat.pow 10 d.exponent.toNat * unitsPerOne)
    (Nat.pow 10 (-d.exponent).toNat)

end DeskCalculator.Binary64
