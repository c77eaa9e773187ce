/-!
# Classes of characters as ranges of code points
-/

namespace DeskCalculator.Character

/-- Ranges of code points, first and last included. -/
abbrev CodeRanges := List (Nat × Nat)

def CodeRanges.contains (ranges : CodeRanges) (code : Nat) : Bool :=
  ranges.any fun (first, last) => first ≤ code && code ≤ last

theorem CodeRanges.contains_iff {ranges : CodeRanges} {code : Nat} :
    ranges.contains code = true ↔ ∃ r ∈ ranges, r.1 ≤ code ∧ code ≤ r.2 := by
  simp [CodeRanges.contains]

end DeskCalculator.Character
