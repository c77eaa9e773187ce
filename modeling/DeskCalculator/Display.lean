import DeskCalculator.Decimal.Shortest

/-!
# Values on the display

A value within the tolerance of a whole number shows that whole number, a large one with all the
digits that it needs to be read back. Any other value shows twelve significant digits.
-/

namespace DeskCalculator.Display

/-- The bits of the double nearest to `10 ^ -12`. -/
def toleranceBits : Nat := 0x3d719799812dea11

def places : Nat := 12

/-- Whole numbers from here on are written with an exponent. -/
def plainLimit : Nat := Nat.pow 10 21

/-- The whole number nearest to the magnitude; a half goes away from zero. -/
def nearestWhole (x : Float) : Nat :=
  roundHalfUp (Binary64.units x) Binary64.unitsPerOne

/-- How far the magnitude lies from the nearest whole number, in units. -/
def distanceToWhole (x : Float) : Nat :=
  let whole := nearestWhole x * Binary64.unitsPerOne
  (Binary64.units x - whole) + (whole - Binary64.units x)

def isNearlyWhole (x : Float) : Bool :=
  distanceToWhole x < Binary64.unitsOfBits toleranceBits

/-- Written out from `10 ^ -6` up to twelve digits before the point, with an exponent elsewhere. -/
def layout (d : Decimal) : List Char :=
  if -6 ≤ d.leadingExponent ∧ d.leadingExponent < places then d.plain else d.scientific

def magnitudeText (x : Float) : List Char :=
  if isNearlyWhole x then
    let whole := nearestWhole x
    if whole < plainLimit then Nat.toDigits 10 whole
    else (Decimal.shortest (Binary64.magnitudeBits x)).scientific
  else layout (Decimal.significant places (Binary64.units x) Binary64.unitsPerOne)

/-- The text of a value; zero has no sign. -/
def text (x : Float) : String :=
  if Binary64.infinity ≤ Binary64.magnitudeBits x then numberText x
  else if isNearlyWhole x && nearestWhole x == 0 then "0"
  else String.ofList (if Binary64.isNegative x then '-' :: magnitudeText x else magnitudeText x)

end DeskCalculator.Display
