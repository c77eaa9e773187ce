import DeskCalculator.Evaluation
import DeskCalculator.Proofs.Expr.OfParseTree
import DeskCalculator.Proofs.PostfixOrder.Progress
import DeskCalculator.Proofs.StackMachine

/-!
# The value of a text

A text whose tokens are a sentence has the value of its parse tree, unless it is too deep; and every
text with a value is such a text.
-/

namespace DeskCalculator

open DeskCalculator.Except Grammar

/-! ## The value of a parse tree -/

namespace ParseTree

/-- The value of the tree, or the first fault from left to right. -/
def value : ParseTree → Except Fault Float
  | number x => defined x
  | constant c => defined c.value
  | call f argument => do f.apply (← argument.value)
  | group inner => inner.value
  | power base exponent => do
    let x ← base.value
    let y ← exponent.value
    defined (x.pow y)
  | plus operand => operand.value
  | minus operand => do defined (-(← operand.value))
  | binary o left right => do
    let x ← left.value
    let y ← right.value
    defined (← o.apply x y)

theorem run_postorder (t : ParseTree) (stack : List Float) (rest : List Token) :
    StackMachine.run stack (t.postorder ++ rest) =
      (do StackMachine.run ((← t.value) :: stack) rest) := by
  induction t generalizing stack rest with
  | number x => simp [postorder, value, StackMachine.run, StackMachine.step]
  | constant c => simp [postorder, value, StackMachine.run, StackMachine.step]
  | call f t ih =>
      have hc := Constant.ofName?_functionName f
      simp [postorder, value, StackMachine.run, StackMachine.step, ih, hc]
  | group t ih => exact ih stack rest
  | power a b iha ihb => simp [postorder, value, StackMachine.run, StackMachine.step, iha, ihb]
  | plus t ih => exact ih stack rest
  | minus t ih => simp [postorder, value, StackMachine.run, StackMachine.step, ih]
  | binary o a b iha ihb => simp [postorder, value, StackMachine.run, StackMachine.step, iha, ihb]

theorem result_postorder (t : ParseTree) : StackMachine.result t.postorder = t.value := by
  have := run_postorder t [] []
  simp only [List.append_nil] at this
  simp [StackMachine.result, this, StackMachine.run]

end ParseTree

/-! ## The expression of a parse tree -/

namespace Expr

theorem ofPostfixOrder_postorder (t : ParseTree) :
    ofPostfixOrder t.postorder = .error .tooDeep ∨
      ∃ e, ofPostfixOrder t.postorder = .ok e ∧ e.value = t.value := by
  rw [ofPostfixOrder_postorder_eq t]
  by_cases h : maxHeight < t.peak
  · exact .inl (if_pos h)
  · have hp := pushAll_nil_postorder t
    rw [if_neg h] at hp
    refine .inr ⟨t.built.expr, if_neg h, ?_⟩
    rw [StackMachine.value_eq_of_pushAll hp, t.result_postorder]

end Expr

/-! ## The value of a text -/

theorem compute_sentence {text : List Char} {ts : List Token} {t : ParseTree} (ht : tokens text = .ok ts)
    (hs : Sentence ts t) : compute text = t.value ∨ compute text = .error (.grammar .tooDeep) := by
  by_cases hn : t.nesting ≤ PostfixOrder.maxDepth
  · rcases Expr.ofPostfixOrder_postorder t with h | ⟨e, h, hv⟩
    · exact .inr (by simp [compute, parse, ht, hs.ofTokens, hn, h, Except.mapError])
    · exact .inl (by simp [compute, parse, ht, hs.ofTokens, hn, h, hv, Except.mapError])
  · exact .inr (by simp [compute, parse, ht, hs.ofTokens, hn, Except.mapError])

theorem exists_sentence_of_compute {text : List Char} {x : Float} (h : compute text = .ok x) :
    ∃ ts t, tokens text = .ok ts ∧ Sentence ts t ∧ t.value = .ok x := by
  cases hp : parse text with
  | error fault => simp [compute, hp, Except.mapError] at h
  | ok e =>
      have hc := h
      simp only [parse, bind_eq_ok_iff] at hp
      obtain ⟨ts, ht, order, ho, he⟩ := hp
      obtain ⟨t, hs, rfl⟩ := exists_sentence ho
      refine ⟨ts, t, ht, hs, ?_⟩
      rcases compute_sentence ht hs with hv | hv
      · exact hv.symm.trans h
      · exact absurd (hv.symm.trans h) (by simp)

end DeskCalculator
