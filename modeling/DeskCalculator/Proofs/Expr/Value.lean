import DeskCalculator.Expr
import DeskCalculator.Proofs.Except

/-!
# Values of expressions

No expression has a value that is not a number, and a chain is valued link by link: what is joined
at its end is applied last.
-/

namespace DeskCalculator.Expr

open DeskCalculator.Except

/-! ## Values are numbers -/

theorem isNaN_of_defined {x y : Float} (h : defined x = .ok y) : y.isNaN = false := by
  obtain ⟨hx, rfl⟩ := defined_eq_ok_iff.mp h
  exact hx

theorem defined_of_isNaN {x : Float} (h : x.isNaN = false) : defined x = .ok x :=
  defined_eq_ok_iff.mpr ⟨h, rfl⟩

theorem isNaN_of_chainValue {x y : Float} {links : List (Op × Expr)} (hx : x.isNaN = false)
    (h : chainValue x links = .ok y) : y.isNaN = false := by
  induction links generalizing x with
  | nil =>
      simp only [chainValue, Except.ok.injEq] at h
      exact h ▸ hx
  | cons link links ih =>
      obtain ⟨op, e⟩ := link
      simp only [chainValue, bind_eq_ok_iff] at h
      obtain ⟨_, _, _, _, w, hw, h⟩ := h
      exact ih (isNaN_of_defined hw) h

theorem isNaN_of_raiseAll {xs : List Float} {y : Float} (h : raiseAll xs = .ok y) : y.isNaN = false := by
  match xs with
  | [] => simp only [raiseAll, reduceCtorEq] at h
  | [x] => exact isNaN_of_defined h
  | x :: z :: rest =>
      simp only [raiseAll, bind_eq_ok_iff] at h
      obtain ⟨_, _, h⟩ := h
      exact isNaN_of_defined h

theorem isNaN_of_value {x : Float} : {e : Expr} → e.value = .ok x → x.isNaN = false
  | .number _, h | .constant _, h => isNaN_of_defined (by simpa only [value] using h)
  | .negation e, h => by
      simp only [value, bind_eq_ok_iff] at h
      obtain ⟨_, _, h⟩ := h
      exact isNaN_of_defined h
  | .chain head links, h => by
      simp only [value, bind_eq_ok_iff] at h
      obtain ⟨y, hy, h⟩ := h
      exact isNaN_of_chainValue (isNaN_of_value hy) h
  | .tower members, h => by
      simp only [value, bind_eq_ok_iff] at h
      obtain ⟨_, _, h⟩ := h
      exact isNaN_of_raiseAll h
  | .call f argument, h => by
      simp only [value, bind_eq_ok_iff] at h
      obtain ⟨_, _, h⟩ := h
      exact NamedFunction.isNaN_of_apply h

/-! ## Longer chains and towers -/

theorem chainValue_append (x : Float) (links : List (Op × Expr)) (o : Op) (e : Expr) :
    chainValue x (links ++ [(o, e)]) = (do
      let y ← chainValue x links
      let z ← e.value
      defined (← o.apply y z)) := by
  induction links generalizing x with
  | nil => simp [chainValue]
  | cons link links ih =>
      obtain ⟨op, d⟩ := link
      simp only [List.cons_append, chainValue, ih, bind_assoc]

end DeskCalculator.Expr
