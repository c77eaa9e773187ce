import DeskCalculator.Canonical.Literal
import DeskCalculator.Canonical.TrigCall

/-!
# Canonical text

What the user typed becomes an arithmetic text of numbers, operators, parentheses and full names.
The rules run one after the other over the whole text. They refuse nothing: what they do not know
stays, and fails when it is read.
-/

namespace DeskCalculator.Canonical

/-! ## Signs of typography -/

def asciiSign (c : Char) : Char :=
  match c with
  | '×' => '*'
  | '÷' => '/'
  | '–' | '−' => '-'
  | c => c

/-- A caret is written as the operator of powers. -/
def powerSign (c : Char) : List Char :=
  if c == '^' then ['*', '*'] else [c]

/-! ## All rules -/

/-- The canonical text up to the trigonometric calls; it does not depend on the mode. -/
def beforeTrig (raw : List Char) : List Char :=
  let text := percent.apply (raw.map asciiSign)
  let text := euler.apply (pi.apply text)
  factorial.apply (functionCall.apply (text.flatMap powerSign))

def text (mode : AngleMode) (raw : List Char) : List Char :=
  expandTrig mode (beforeTrig raw)

end DeskCalculator.Canonical
