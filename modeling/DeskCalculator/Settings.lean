import DeskCalculator.AngleMode

/-!
# Settings

What a session starts with: the angle mode, how many rows of history are kept, and the theme.
-/

namespace DeskCalculator

structure Settings where
  mode : AngleMode
  historyLimit : Nat
  darkTheme : Bool
deriving DecidableEq, Repr

namespace Settings

/-- What holds where nothing else is set. -/
def standard : Settings := ⟨.degrees, 10, false⟩

/-- A history keeps no more rows. -/
def maxHistoryLimit : Nat := 100

/-- Brings the limit of the history between one and the greatest. -/
def clamp (s : Settings) : Settings :=
  { s with historyLimit := max 1 (min s.historyLimit maxHistoryLimit) }

theorem one_le_historyLimit_clamp (s : Settings) : 1 ≤ s.clamp.historyLimit :=
  Nat.le_max_left _ _

theorem historyLimit_clamp_le (s : Settings) : s.clamp.historyLimit ≤ maxHistoryLimit :=
  Nat.max_le.mpr ⟨by decide, Nat.min_le_right _ _⟩

end Settings

end DeskCalculator
