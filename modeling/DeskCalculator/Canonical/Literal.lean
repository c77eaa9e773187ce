import DeskCalculator.Character.DecimalDigit
import DeskCalculator.Rule

/-!
# Signs behind a number

A percent or factorial sign belongs to the digits directly before it, with at most one point between
them.
-/

namespace DeskCalculator.Canonical

open Character

/-- The digits of a number with the sign directly behind them: `12` of `12%`, `1.5` of `1.5!`. -/
def literalBefore? (sign : Char) (text : List Char) : Option (List Char) :=
  let whole := text.takeWhile isDecimalDigit
  if whole.isEmpty then none
  else match text.dropWhile isDecimalDigit with
    | [] => none
    | c :: rest =>
      if c == sign then some whole
      else
        let fraction := rest.takeWhile isDecimalDigit
        if c == '.' && !fraction.isEmpty && (rest.dropWhile isDecimalDigit).head? == some sign
        then some (whole ++ '.' :: fraction) else none

/-- Takes a number with the sign behind it and writes the number between two texts. -/
def signRule (sign : Char) (before after : String) : Rule := fun _ text =>
  (literalBefore? sign text).map fun literal =>
    ⟨literal.length + 1, before.toList ++ literal ++ after.toList⟩

/-- `N%` is a hundredth of `N`. -/
def percent : Rule := signRule '%' "(" "/100)"

def factorial : Rule := signRule '!' "factorial(" ")"

end DeskCalculator.Canonical
