import DeskCalculator.Binary64

/-!
# Factorials of doubles

The product of the whole numbers up to the argument, rounded after each factor. It ends at the first
infinite product, so the count of factors stays small for every argument.
-/

namespace DeskCalculator

/-- Multiplies by `count` successive numbers from `i` on, or until the product is infinite. -/
def risingProduct : (count i : Nat) → (product : Float) → Float
  | 0, _, product => product
  | count + 1, i, product =>
    let next := product * Float.ofNat i
    if next.isInf then next else risingProduct count (i + 1) next

/-- The factorial of the whole part; below zero there is none. -/
def factorial (x : Float) : Float :=
  if x.isNaN || x < 0 then Float.ofBits 0x7FF8000000000000
  else risingProduct (Binary64.wholePart x - 1) 2 1

end DeskCalculator
