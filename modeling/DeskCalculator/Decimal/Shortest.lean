import DeskCalculator.Binary64

/-!
# The fewest digits that read back

Each double is the nearest one to many decimal numbers. The shortest of them have the fewest
significant digits, and among those the nearest to the double is taken; of two equally near, the
greater.
-/

namespace DeskCalculator

namespace Decimal

/-- The decimal number is nearest to the double of these bits. -/
def readsBack (d : Decimal) (bits : Nat) : Bool :=
  Binary64.bitsOfDecimal d == bits

/-- The number of `places` significant digits that reads back and lies nearest to the double. -/
def withPlaces? (bits places : Nat) : Option Decimal :=
  let units := Binary64.unitsOfBits bits
  let k := leadingExponentOfRatio units Binary64.unitsPerOne - (places - 1)
  let (n, d) := inUnits units Binary64.unitsPerOne k
  let below : Decimal := ⟨n / d, k⟩
  let above : Decimal := ⟨n / d + 1, k⟩
  match below.readsBack bits, above.readsBack bits with
  | true, true => if 2 * (n % d) < d then below else above
  | true, false => below
  | false, true => above
  | false, false => none

def exact (bits : Nat) : Decimal :=
  ⟨Binary64.unitsOfBits bits * Nat.pow 5 1074, -1074⟩

/-- The shortest decimal number of the positive finite double of these bits; seventeen digits always
suffice. -/
def shortest (bits : Nat) : Decimal :=
  ((List.range 17).findSome? fun i => withPlaces? bits (i + 1)).getD (exact bits)

end Decimal

/-! ## The text of a double -/

/-- The shortest digits of a double with all places written out. -/
def numberText (x : Float) : String :=
  let bits := Binary64.magnitudeBits x
  let sign := if Binary64.isNegative x then "-" else ""
  if Binary64.infinity < bits then "NaN"
  else if bits = Binary64.infinity then sign ++ "inf"
  else if bits = 0 then sign ++ "0"
  else sign ++ String.ofList (Decimal.shortest bits).plain

end DeskCalculator
