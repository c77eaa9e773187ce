/-!
# Replacement rules over a text

A rule looks at the start of a text, knowing the character just before it, and may take a first
piece away and write something in its place. It runs over a text from left to right; what it took or
wrote it does not look at again.
-/

namespace DeskCalculator

/-- How many characters a rule takes, at least one, and what it writes for them. -/
structure Replacement where
  length : Nat
  written : List Char
deriving DecidableEq, Repr

abbrev Rule := Option Char → List Char → Option Replacement

namespace Rule

/-- Runs over a text after `skip` more characters that the last match took. -/
def applyFrom (rule : Rule) : (skip : Nat) → (previous : Option Char) → List Char → List Char
  | _, _, [] => []
  | skip + 1, _, c :: rest => applyFrom rule skip (some c) rest
  | 0, previous, c :: rest =>
    match rule previous (c :: rest) with
    | some r => r.written ++ applyFrom rule (r.length - 1) (some c) rest
    | none => c :: applyFrom rule 0 (some c) rest

def apply (rule : Rule) (text : List Char) : List Char :=
  applyFrom rule 0 none text

/-! ## One place -/

theorem applyFrom_none {rule : Rule} {previous : Option Char} {c : Char} {rest : List Char}
    (h : rule previous (c :: rest) = none) :
    applyFrom rule 0 previous (c :: rest) = c :: applyFrom rule 0 (some c) rest := by
  simp [applyFrom, h]

theorem applyFrom_some {rule : Rule} {previous : Option Char} {c : Char} {rest : List Char}
    {r : Replacement} (h : rule previous (c :: rest) = some r) :
    applyFrom rule 0 previous (c :: rest) =
      r.written ++ applyFrom rule (r.length - 1) (some c) rest := by
  simp [applyFrom, h]

end Rule

end DeskCalculator
