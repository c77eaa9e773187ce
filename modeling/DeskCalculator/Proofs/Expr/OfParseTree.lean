import DeskCalculator.Proofs.Expr.Height
import DeskCalculator.Proofs.Grammar

/-!
# The expression of a parse tree

The postorder of a tree is built into the one expression that is put together along the tree, unless that of
some part is higher than the bound.
-/

namespace DeskCalculator

open DeskCalculator.Except Expr

namespace ParseTree

/-- What is built from the tree, however high. -/
def built : ParseTree → Built
  | number x => .leaf (.number x)
  | constant c => .leaf (.constant c)
  | call f argument => argument.built.call f
  | group inner => inner.built
  | power base exponent => base.built.raise exponent.built
  | plus operand => operand.built
  | minus operand => operand.built.negate
  | binary o left right => left.built.link o right.built

/-- The height of the expression of the tree. -/
def height (t : ParseTree) : Nat := t.built.expr.height

/-- The greatest height of the expressions that are built one after the other. -/
def peak : ParseTree → Nat
  | number _ | constant _ => 1
  | call f argument => max argument.peak (call f argument).height
  | group inner => inner.peak
  | power base exponent => max (max base.peak exponent.peak) (power base exponent).height
  | plus operand => operand.peak
  | minus operand => max operand.peak (minus operand).height
  | binary o left right => max (max left.peak right.peak) (binary o left right).height

theorem built_height (t : ParseTree) : t.built.height = t.height := by
  induction t with
  | number | constant => rfl
  | call _ _ ih => exact Built.call_isMeasured ih
  | group _ ih | plus _ ih => exact ih
  | power _ _ iha ihb => exact Built.raise_isMeasured iha ihb
  | minus _ ih => exact Built.negate_isMeasured ih
  | binary _ _ _ iha ihb => exact Built.link_isMeasured iha ihb

theorem height_le_peak (t : ParseTree) : t.height ≤ t.peak := by
  cases t with
  | number | constant => exact Nat.le_refl 1
  | group t => exact height_le_peak t
  | plus t => exact height_le_peak t
  | _ => exact Nat.le_max_right ..

end ParseTree

namespace Expr

theorem ite_lt_max {α : Type} (n a b : Nat) (x y : α) :
    (if n < a then x else if n < b then x else y) = if n < max a b then x else y := by
  have h : n < max a b ↔ n < a ∨ n < b := by omega
  by_cases ha : n < a <;> by_cases hb : n < b <;> simp [h, ha, hb]

/-- The last token of a tree's postorder. -/
theorem pushAll_built {token : Token} {stack under : List Built} (t : ParseTree)
    (h : Pushes token stack (t.built :: under)) (rest : List Token) : pushAll stack (token :: rest) =
      if maxHeight < t.height then .error .tooDeep else pushAll (t.built :: under) rest := by
  simp only [pushAll, h.push_eq, pushBuilt, t.built_height]
  split <;> rfl

theorem pushAll_postorder (t : ParseTree) (stack : List Built) (rest : List Token) :
    pushAll stack (t.postorder ++ rest) =
    if maxHeight < t.peak then .error .tooDeep else pushAll (t.built :: stack) rest := by
  induction t generalizing stack rest with
  | number x => exact pushAll_built (.number x) (.number x stack) rest
  | constant c => exact pushAll_built (.constant c) (.constant c stack) rest
  | call f t ih =>
      rw [ParseTree.postorder, List.append_assoc, ih, List.singleton_append,
        pushAll_built (.call f t) (.call f t.built stack), ite_lt_max, ParseTree.peak]
  | group t ih | plus t ih => exact ih stack rest
  | power a b iha ihb =>
      rw [ParseTree.postorder, List.append_assoc, List.append_assoc, iha, ihb, List.singleton_append,
        pushAll_built (.power a b) (.power a.built b.built stack), ite_lt_max, ite_lt_max,
          ParseTree.peak, Nat.max_assoc]
  | minus t ih =>
      rw [ParseTree.postorder, List.append_assoc, ih, List.singleton_append,
        pushAll_built (.minus t) (.negation t.built stack), ite_lt_max, ParseTree.peak]
  | binary o a b iha ihb =>
      rw [ParseTree.postorder, List.append_assoc, List.append_assoc, iha, ihb, List.singleton_append,
        pushAll_built (.binary o a b) (.op o a.built b.built stack), ite_lt_max, ite_lt_max,
          ParseTree.peak, Nat.max_assoc]

theorem pushAll_nil_postorder (t : ParseTree) : pushAll [] t.postorder =
    if maxHeight < t.peak then .error .tooDeep else .ok [t.built] := by
  have := pushAll_postorder t [] []
  rwa [List.append_nil] at this

/-- The tree's expression results, unless one that is built on the way is too high. -/
theorem ofPostfixOrder_postorder_eq (t : ParseTree) : ofPostfixOrder t.postorder =
    if maxHeight < t.peak then .error .tooDeep else .ok t.built.expr := by
  rw [ofPostfixOrder, pushAll_nil_postorder]
  split <;> rfl

end Expr

end DeskCalculator
