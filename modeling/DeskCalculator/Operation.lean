import DeskCalculator.Factorial
import DeskCalculator.Fault

/-!
# Functions and operators on doubles

Roots and logarithms refuse negative numbers, the inverse sine and cosine what lies outside `[-1,
1]`, and division a zero divisor. No function yields what is not a number.
-/

namespace DeskCalculator

/-! ## Functions -/

namespace NamedFunction

/-- The function without its domain checks. -/
def compute : NamedFunction → Float → Float
  | sqrt => Float.sqrt
  | ln => Float.log
  | log10 => Float.log10
  | exp => Float.exp
  | abs => Float.abs
  | floor => Float.floor
  | ceil => Float.ceil
  | sin => Float.sin
  | cos => Float.cos
  | tan => Float.tan
  | asin => Float.asin
  | acos => Float.acos
  | atan => Float.atan
  | factorial => DeskCalculator.factorial

/-- The fault of an argument outside the function's domain. -/
def refusal? (f : NamedFunction) (x : Float) : Option DomainFault :=
  match f with
  | sqrt => if x < 0 then some .rootOfNegative else none
  | ln | log10 => if x < 0 then some .logarithmOfNegative else none
  | asin | acos => if -1 ≤ x ∧ x ≤ 1 then none else some (.outsideUnitInterval f)
  | _ => none

def apply (f : NamedFunction) (x : Float) : Except Fault Float :=
  match f.refusal? x with
  | some fault => .error (.domain fault)
  | none =>
    let y := f.compute x
    if y.isNaN then .error (.domain (.undefinedAt f x)) else .ok y

theorem isNaN_of_apply {f : NamedFunction} {x y : Float} (h : f.apply x = .ok y) : y.isNaN = false := by
  cases hr : f.refusal? x with
  | some fault => simp only [apply, hr, reduceCtorEq] at h
  | none =>
    cases hn : (f.compute x).isNaN with
    | true => simp only [apply, hr, hn, if_true, reduceCtorEq] at h
    | false =>
      simp only [apply, hr, hn, Bool.false_eq_true, if_false, Except.ok.injEq] at h
      exact h ▸ hn

end NamedFunction

/-! ## Operators -/

/-- The operators which group from the left. -/
inductive Op where
  | add
  | sub
  | mul
  | div
deriving DecidableEq, Repr

namespace Op

def symbol : Op → String
  | add => "+"
  | sub => "-"
  | mul => "*"
  | div => "/"

def apply (op : Op) (a b : Float) : Except Fault Float :=
  match op with
  | add => .ok (a + b)
  | sub => .ok (a - b)
  | mul => .ok (a * b)
  | div => if b == 0 then .error (.domain .divisionByZero) else .ok (a / b)

end Op

/-- Passes every value but what is not a number. -/
def defined (x : Float) : Except Fault Float :=
  if x.isNaN then .error (.domain .undefinedValue) else .ok x

theorem defined_eq_ok_iff {x y : Float} : defined x = .ok y ↔ x.isNaN = false ∧ x = y := by
  unfold defined
  cases h : x.isNaN <;> simp

end DeskCalculator
