import DeskCalculator.Operation

/-!
# Expressions

Operators that group from one side are stored flat: a chain holds a head and what is joined to it
from left to right, a tower holds a base and its exponents. Only parentheses, calls and operands of
other strength make an expression higher.
-/

namespace DeskCalculator

inductive Expr where
  | number (x : Float)
  | constant (c : Constant)
  | negation (e : Expr)
  | chain (head : Expr) (links : List (Op × Expr))
  | tower (members : List Expr)
  | call (f : NamedFunction) (argument : Expr)

namespace Expr

/-! ## Values -/

/-- The value of a tower of powers, computed from the last exponent. -/
def raiseAll : List Float → Except Fault Float
  | [] => .error (.grammar .emptyTower)
  | [x] => defined x
  | x :: y :: rest => do
    let exponent ← raiseAll (y :: rest)
    defined (x.pow exponent)

mutual

/-- The value of an expression, or the first fault from left to right. Infinite intermediate values
are allowed. -/
def value : Expr → Except Fault Float
  | .number x => defined x
  | .constant c => defined c.value
  | .negation e => do defined (-(← e.value))
  | .chain head links => do chainValue (← head.value) links
  | .tower members => do raiseAll (← values members)
  | .call f argument => do f.apply (← argument.value)

/-- Joins the links to the value of what stands before them. -/
def chainValue (x : Float) : List (Op × Expr) → Except Fault Float
  | [] => .ok x
  | (op, e) :: links => do
    let y ← e.value
    let z ← op.apply x y
    chainValue (← defined z) links

def values : List Expr → Except Fault (List Float)
  | [] => .ok []
  | e :: rest => do
    let x ← e.value
    let xs ← values rest
    return x :: xs

end

end Expr

end DeskCalculator
