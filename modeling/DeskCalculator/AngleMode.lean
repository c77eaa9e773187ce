/-!
# Angle modes

The unit in which the trigonometric functions take their argument, and their inverses give their
result.
-/

namespace DeskCalculator

inductive AngleMode where
  | degrees
  | radians
deriving DecidableEq, Repr

namespace AngleMode

def toggle : AngleMode → AngleMode
  | degrees => radians
  | radians => degrees

/-- The mode's name on its button. -/
def label : AngleMode → String
  | degrees => "deg"
  | radians => "rad"

@[simp] theorem toggle_toggle (mode : AngleMode) : mode.toggle.toggle = mode := by
  cases mode <;> rfl

theorem toggle_ne (mode : AngleMode) : mode.toggle ≠ mode := by
  cases mode <;> decide

theorem label_injective {m n : AngleMode} (h : m.label = n.label) : m = n := by
  cases m <;> cases n <;> simp_all [label]

end AngleMode

end DeskCalculator
