import DeskCalculator.Canonical
import DeskCalculator.Display
import DeskCalculator.Expr.OfPostfixOrder
import DeskCalculator.PostfixOrder
import DeskCalculator.Token.Lexer

/-!
# Evaluation

From what the user typed to a value for the display. A blank text has no value and is no fault.
-/

namespace DeskCalculator

def parse (canonical : List Char) : Except GrammarFault Expr := do
  let order ← PostfixOrder.ofTokens (← tokens canonical)
  Expr.ofPostfixOrder order

/-- The value of a canonical text, which may be infinite. -/
def compute (canonical : List Char) : Except Fault Float := do
  (← (parse canonical).mapError Fault.grammar).value

/-- Refuses what has no finite value, and takes what is nearer to zero than the display's tolerance
for zero. -/
def settle (x : Float) : Except Fault Float :=
  if x.isInf then .error .overflow
  else if x.isNaN then .error (.domain .undefinedValue)
  else if Binary64.magnitudeBits x < Display.toleranceBits then .ok 0
  else .ok x

def isBlank (text : String) : Bool :=
  text.toList.all Character.isWhiteSpace

def evaluate (mode : AngleMode) (raw : String) : Except Fault (Option Float) :=
  if isBlank raw then .ok none
  else do
    let x ← settle (← compute (Canonical.text mode raw.toList))
    return some x

end DeskCalculator
