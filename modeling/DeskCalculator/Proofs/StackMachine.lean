import DeskCalculator.Proofs.Binary64.NotANumber
import DeskCalculator.Proofs.Expr.Normal
import DeskCalculator.Proofs.Expr.Value

/-!
# The stack machine

A plain machine for postfix order: it pushes the value of each leaf, and each operator or function
takes its operands from the stack and pushes its result. The value of the expression that is built
from postfix order is what this machine computes, and both fail for the same reason.
-/

namespace DeskCalculator.StackMachine

open DeskCalculator.Except

/-! ## The machine -/

/-- Runs one token on the stack of values, whose top comes first. -/
def step (stack : List Float) : Token → Except Fault (List Float)
  | .number x => do return (← defined x) :: stack
  | .name n =>
    match Constant.ofName? n, NamedFunction.ofName? n, stack with
    | some c, _, _ => do return (← defined c.value) :: stack
    | none, some f, x :: rest => do return (← f.apply x) :: rest
    | none, some _, [] => .error (.grammar (.missingArgument n))
    | none, none, _ => .error (.grammar (.unknownName n))
  | .negation =>
    match stack with
    | x :: rest => do return (← defined (-x)) :: rest
    | [] => .error (.grammar .malformedExpression)
  | .power =>
    match stack with
    | y :: x :: rest => do return (← defined (x.pow y)) :: rest
    | _ => .error (.grammar .malformedExpression)
  | .op o =>
    match stack with
    | y :: x :: rest => do return (← defined (← o.apply x y)) :: rest
    | _ => .error (.grammar .malformedExpression)
  | .opening | .closing => .error (.grammar .parenthesisInPostfixOrder)

def run : List Float → List Token → Except Fault (List Float)
  | stack, [] => .ok stack
  | stack, t :: rest => do run (← step stack t) rest

/-- The value of a whole list of tokens. -/
def result (order : List Token) : Except Fault Float := do
  match ← run [] order with
  | [x] => return x
  | _ => throw (.grammar .malformedExpression)

/-! ## The values of a stack of expressions -/

open DeskCalculator.Expr

/-- The values of the expressions on a stack, the lowest valued first. -/
def valuesOf : List Built → Except Fault (List Float)
  | [] => .ok []
  | x :: rest => do
    let values ← valuesOf rest
    return (← x.expr.value) :: values

theorem value_negate (x : Built) : x.negate.expr.value = (do defined (-(← x.expr.value))) := by
  obtain ⟨e, n⟩ := x
  cases e with
  | negation e =>
      show e.value = (do defined (-(← (Expr.negation e).value)))
      cases he : e.value with
      | error fault => simp [value, he]
      | ok y =>
          have hy := isNaN_of_value he
          have hn : (-y).isNaN = false := (Binary64.isNaN_neg y).trans hy
          simp only [value, he, ok_bind, defined_of_isNaN hn, Binary64.neg_neg, defined_of_isNaN hy]
  | _ => rfl

theorem value_link (op : Op) (a b : Built) : (a.link op b).expr.value = (do
    let x ← a.expr.value
    let y ← b.expr.value
    defined (← op.apply x y)) := by
  obtain ⟨e, n⟩ := a
  cases e with
  | chain head links => simp only [Built.link, value, chainValue_append, bind_assoc]
  | _ => simp only [Built.link, value, chainValue, bind_ok]

theorem values_ne_nil {members : List Expr} {xs : List Float} (hm : members ≠ [])
    (h : values members = .ok xs) : xs ≠ [] := by
  cases members with
  | nil => exact absurd rfl hm
  | cons m members =>
      simp only [values, bind_eq_ok_iff, pure_eq, Except.ok.injEq] at h
      obtain ⟨_, _, _, _, rfl⟩ := h
      simp

theorem value_pair (a b : Expr) : (Expr.tower [a, b]).value = (do
    let x ← a.value
    let y ← b.value
    defined (x.pow y)) := by
  simp only [value, values, bind_assoc, pure_eq, ok_bind]
  cases a.value with
  | error fault => rfl
  | ok x =>
      cases hb : b.value with
      | error fault => rfl
      | ok y => simp [raiseAll, defined_of_isNaN (isNaN_of_value hb)]

theorem value_raise {a b : Built} (hb : b.expr.Normal) : (a.raise b).expr.value = (do
    let x ← a.expr.value
    let y ← b.expr.value
    defined (x.pow y)) := by
  obtain ⟨e, n⟩ := b
  cases e with
  | tower members =>
      have hm : members ≠ [] := by
        intro h
        subst h
        exact absurd hb.1 (by decide)
      simp only [Built.raise, value, values, bind_assoc, pure_eq, ok_bind]
      cases a.expr.value with
      | error fault => rfl
      | ok x =>
          cases hv : values members with
          | error fault => rfl
          | ok ys =>
              cases ys with
              | nil => exact absurd rfl (values_ne_nil hm hv)
              | cons y ys => rfl
  | _ => exact value_pair _ _

/-! ## Machine and expression side by side -/

theorem valuesOf_push {t : Token} {stack stack' : List Built} (h : Pushes t stack stack')
    (hs : ∀ x ∈ stack, x.expr.Normal) : (do step (← valuesOf stack) t) = valuesOf stack' := by
  cases h with
  | number x stack => simp [step, valuesOf, Built.leaf, value]
  | constant c stack => simp [step, valuesOf, Built.leaf, value]
  | call f x stack =>
      have hc := Constant.ofName?_functionName f
      simp [step, valuesOf, Built.call, value, hc]
  | negation x stack => simp [step, valuesOf, value_negate]
  | power a b stack =>
      have hb : b.expr.Normal := hs b (List.mem_cons_self ..)
      simp [step, valuesOf, value_raise hb]
  | op o a b stack => simp [step, valuesOf, value_link]

theorem valuesOf_pushAll {order : List Token} {stack stack' : List Built}
    (hs : ∀ x ∈ stack, x.expr.Normal) (h : pushAll stack order = .ok stack') :
    (do run (← valuesOf stack) order) = valuesOf stack' := by
  induction order generalizing stack with
  | nil =>
      simp only [pushAll, Except.ok.injEq] at h
      simp [run, h]
  | cons t order ih =>
      simp only [pushAll, bind_eq_ok_iff] at h
      obtain ⟨stack₁, h₁, h⟩ := h
      have hp := pushes_of_push h₁
      have := ih (hp.normal hs) h
      rw [← this, ← valuesOf_push hp hs]
      simp [run]

theorem value_eq_of_pushAll {order : List Token} {x : Built} (h : pushAll [] order = .ok [x]) :
    x.expr.value = result order := by
  have hr : run [] order = valuesOf [x] := valuesOf_pushAll (by simp) h
  simp [result, hr, valuesOf]

/-- The value of the expression built from a list of tokens is what the machine computes, and the two
fail for the same reason. -/
theorem value_eq_result {order : List Token} {e : Expr} (h : ofPostfixOrder order = .ok e) :
    e.value = result order := by
  simp only [ofPostfixOrder, bind_eq_ok_iff] at h
  obtain ⟨stack, hs, h⟩ := h
  match stack, h with
  | [x], h =>
      obtain rfl : x.expr = e := by simpa using h
      exact value_eq_of_pushAll hs

/-- Two signs before a parenthesis cancel, and the chain `--(8-5)-3` loses its parenthesis. -/
theorem value_eq_result_of_merged_chain :
    ofPostfixOrder [.number 8, .number 5, .op .sub, .negation, .negation, .number 3, .op .sub] =
        .ok (.chain (.number 8) [(.sub, .number 5), (.sub, .number 3)]) ∧
      (Expr.chain (.number 8) [(.sub, .number 5), (.sub, .number 3)]).value =
        result [.number 8, .number 5, .op .sub, .negation, .negation, .number 3, .op .sub] :=
  ⟨rfl, value_eq_result rfl⟩

end DeskCalculator.StackMachine
