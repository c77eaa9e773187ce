import DeskCalculator.Proofs.Binary64.Bits
import DeskCalculator.Proofs.Evaluation

/-!
# Outcomes of an evaluation

A text is blank, cannot be read, has a part without a value, is infinite or has a result, and each
kind of failure comes from one stage only: what was built from postfix order fails only for the
domain of an operation.
-/

namespace DeskCalculator

open DeskCalculator.Except

/-! ## Failures of expressions -/

/-- Nothing fails but for the domain of an operation. -/
def FailsInDomain {α : Type} (result : Except Fault α) : Prop :=
  ∀ fault, result = .error fault → ∃ d, fault = .domain d

namespace FailsInDomain

variable {α β : Type}

theorem ok (x : α) : FailsInDomain (.ok x) := by
  rintro fault ⟨⟩

theorem domain (d : DomainFault) : FailsInDomain (.error (.domain d) : Except Fault α) := by
  rintro fault ⟨⟩
  exact ⟨d, rfl⟩

theorem bind {x : Except Fault α} {f : α → Except Fault β} (hx : FailsInDomain x)
    (hf : ∀ a, x = .ok a → FailsInDomain (f a)) : FailsInDomain (x >>= f) := by
  cases x with
  | error e =>
      rintro fault ⟨⟩
      exact hx e rfl
  | ok a => exact hf a rfl

theorem defined (x : Float) : FailsInDomain (DeskCalculator.defined x) := by
  unfold DeskCalculator.defined
  split
  · exact domain _
  · exact ok _

theorem apply (f : NamedFunction) (x : Float) : FailsInDomain (f.apply x) := by
  unfold NamedFunction.apply
  split
  · exact domain _
  · dsimp only
    split
    · exact domain _
    · exact ok _

theorem op (o : Op) (x y : Float) : FailsInDomain (o.apply x y) := by
  cases o with
  | add => exact ok (x + y)
  | sub => exact ok (x - y)
  | mul => exact ok (x * y)
  | div =>
      simp only [Op.apply]
      split
      · exact domain .divisionByZero
      · exact ok (x / y)

theorem raiseAll {xs : List Float} (h : xs ≠ []) : FailsInDomain (Expr.raiseAll xs) := by
  induction xs with
  | nil => exact absurd rfl h
  | cons x xs ih =>
      cases xs with
      | nil => exact defined x
      | cons y rest => exact (ih (by simp)).bind fun z _ => defined _

end FailsInDomain

namespace Expr

mutual

theorem Normal.failsInDomain : {e : Expr} → e.Normal → FailsInDomain e.value
  | .number x, _ => by simpa only [value] using .defined x
  | .constant c, _ => by simpa only [value] using .defined c.value
  | .negation e, h => by
      simp only [value]
      exact (Normal.failsInDomain h.1).bind fun x _ => .defined _
  | .chain head links, h => by
      simp only [value]
      exact (Normal.failsInDomain h.1).bind fun x _ => NormalLinks.failsInDomain h.2.2.2 x
  | .tower members, h => by
      simp only [value]
      refine (NormalAll.failsInDomain h.2.2).bind fun xs hxs => .raiseAll ?_
      refine StackMachine.values_ne_nil ?_ hxs
      rintro rfl
      exact absurd h.1 (by decide)
  | .call f argument, h => by
      simp only [value]
      exact (Normal.failsInDomain (e := argument) h).bind fun x _ => .apply f x

theorem NormalLinks.failsInDomain : {links : List (Op × Expr)} → NormalLinks links →
    ∀ x, FailsInDomain (chainValue x links)
  | [], _, x => by simpa only [chainValue] using .ok x
  | (op, e) :: links, h, x => by
      simp only [chainValue]
      exact (Normal.failsInDomain h.1).bind fun y _ => (FailsInDomain.op op x y).bind fun z _ =>
        (FailsInDomain.defined z).bind fun w _ => NormalLinks.failsInDomain h.2 w

theorem NormalAll.failsInDomain :
    {members : List Expr} → NormalAll members → FailsInDomain (values members)
  | [], _ => by simpa only [values] using .ok []
  | e :: rest, h => by
      simp only [values]
      exact (Normal.failsInDomain h.1).bind fun x _ =>
        (NormalAll.failsInDomain h.2).bind fun xs _ => .ok _

end

theorem normal_of_pushAll {order : List Token} {stack stack' : List Built}
    (hs : ∀ x ∈ stack, x.expr.Normal) (h : pushAll stack order = .ok stack') :
    ∀ x ∈ stack', x.expr.Normal := by
  induction order generalizing stack with
  | nil =>
      obtain rfl := Except.ok.inj h
      exact hs
  | cons t order ih =>
      obtain ⟨stack₁, h₁, h⟩ := bind_eq_ok_iff.mp h
      exact ih ((pushes_of_push h₁).normal hs) h

theorem normal_of_ofPostfixOrder {order : List Token} {e : Expr} (h : ofPostfixOrder order = .ok e) :
    e.Normal := by
  obtain ⟨stack, hs, h⟩ := bind_eq_ok_iff.mp h
  match stack, h with
  | [x], h =>
      obtain rfl := Except.ok.inj h
      exact normal_of_pushAll (by simp) hs x (by simp)

end Expr

/-! ## Stages -/

/-- The text has no expression, and this is what is wrong with it. -/
inductive Rejected (canonical : List Char) (g : GrammarFault) : Prop
  | unread : tokens canonical = .error g → Rejected canonical g
  | unordered {ts : List Token} :
      tokens canonical = .ok ts → PostfixOrder.ofTokens ts = .error g → Rejected canonical g
  | unbuilt {ts order : List Token} : tokens canonical = .ok ts → PostfixOrder.ofTokens ts = .ok order →
      Expr.ofPostfixOrder order = .error g → Rejected canonical g

theorem parse_eq_error_iff {canonical : List Char} {g : GrammarFault} :
    parse canonical = .error g ↔ Rejected canonical g := by
  constructor
  · intro h
    cases ht : tokens canonical with
    | error g' =>
        obtain rfl : g' = g := by simpa [parse, ht] using h
        exact .unread ht
    | ok ts =>
        cases ho : PostfixOrder.ofTokens ts with
        | error g' =>
            obtain rfl : g' = g := by simpa [parse, ht, ho] using h
            exact .unordered ht ho
        | ok order => exact .unbuilt ht ho (by simpa [parse, ht, ho] using h)
  · rintro (ht | ⟨ht, ho⟩ | ⟨ht, ho, hb⟩)
    · simp [parse, ht]
    · simp [parse, ht, ho]
    · simp [parse, ht, ho, hb]

theorem normal_of_parse {canonical : List Char} {e : Expr} (h : parse canonical = .ok e) : e.Normal := by
  obtain ⟨ts, -, h⟩ := bind_eq_ok_iff.mp h
  obtain ⟨order, -, h⟩ := bind_eq_ok_iff.mp h
  exact Expr.normal_of_ofPostfixOrder h

/-! ## Results -/

/-- Zero without a sign, or a finite value that the display does not take for zero. -/
def IsResult (v : Float) : Prop :=
  v = 0 ∨ v.isFinite = true ∧ 1e-12 ≤ v.abs

theorem tolerance_eq : (1e-12 : Float) = Binary64.ofBits false Display.toleranceBits := by decide +kernel

theorem tolerance_le_abs_iff {x : Float} (h : x.isNaN = false) :
    1e-12 ≤ x.abs ↔ Display.toleranceBits ≤ Binary64.magnitudeBits x := by
  rw [tolerance_eq]
  exact Binary64.ofBits_le_abs (by decide) h

theorem settle_of_isFinite {x : Float} (h : x.isFinite = true) :
    settle x = .ok (if 1e-12 ≤ x.abs then x else 0) := by
  have hn := Binary64.isNaN_of_isFinite h
  unfold settle
  rw [Binary64.isInf_of_isFinite h, hn, if_neg Bool.false_ne_true, if_neg Bool.false_ne_true]
  by_cases ht : Display.toleranceBits ≤ Binary64.magnitudeBits x
  · rw [if_neg (Nat.not_lt.mpr ht), if_pos ((tolerance_le_abs_iff hn).mpr ht)]
  · rw [if_pos (Nat.not_le.mp ht), if_neg fun h => ht ((tolerance_le_abs_iff hn).mp h)]

theorem isResult_of_isFinite {x : Float} (h : x.isFinite = true) :
    IsResult (if 1e-12 ≤ x.abs then x else 0) := by
  split
  · rename_i ht
    exact .inr ⟨h, ht⟩
  · exact .inl rfl

theorem settle_of_isInf {x : Float} (h : x.isInf = true) : settle x = .error .overflow := by
  simp [settle, h]

/-! ## The outcome of a text -/

/-- How an evaluation can end, and in which stage. -/
inductive Ending (canonical : List Char) : Except Fault (Option Float) → Prop
  | rejected {g : GrammarFault} (hp : parse canonical = .error g) :
      Ending canonical (.error (.grammar g))
  | undefined {e : Expr} {d : DomainFault} (hp : parse canonical = .ok e)
      (hv : e.value = .error (.domain d)) : Ending canonical (.error (.domain d))
  | infinite {e : Expr} {x : Float} (hp : parse canonical = .ok e) (hv : e.value = .ok x)
      (hx : x.isInf = true) : Ending canonical (.error .overflow)
  | finite {e : Expr} {x : Float} (hp : parse canonical = .ok e) (hv : e.value = .ok x)
      (hx : x.isFinite = true) : Ending canonical (.ok (some (if 1e-12 ≤ x.abs then x else 0)))

theorem ending_evaluate {mode : AngleMode} {raw : String} (h : isBlank raw = false) :
    Ending (Canonical.text mode raw.toList) (evaluate mode raw) := by
  cases hp : parse (Canonical.text mode raw.toList) with
  | error g =>
      have he : evaluate mode raw = .error (.grammar g) := by
        simp [evaluate, h, compute, hp, Except.mapError]
      exact he ▸ .rejected hp
  | ok e =>
      have he : evaluate mode raw = (do return some (← settle (← e.value))) := by
        simp [evaluate, h, compute, hp, Except.mapError]
      rw [he]
      cases hv : e.value with
      | error fault =>
          obtain ⟨d, rfl⟩ := (normal_of_parse hp).failsInDomain fault hv
          exact .undefined hp hv
      | ok x =>
          have hn := Expr.isNaN_of_value hv
          cases hf : x.isFinite with
          | true =>
              rw [ok_bind, settle_of_isFinite hf]
              exact .finite hp hv hf
          | false =>
              have hi : x.isInf = true := by simp [Binary64.isInf_eq_not_isFinite hn, hf]
              rw [ok_bind, settle_of_isInf hi]
              exact .infinite hp hv hi

namespace Ending

variable {canonical : List Char} {result : Except Fault (Option Float)} (h : Ending canonical result)
include h

theorem ne_none : result ≠ .ok none := by
  cases h <;> simp

theorem eq_grammar_iff {g : GrammarFault} :
    result = .error (.grammar g) ↔ parse canonical = .error g := by
  cases h <;> simp [*]

theorem exists_eq_domain_iff : (∃ d, result = .error (.domain d)) ↔
    ∃ e fault, parse canonical = .ok e ∧ e.value = .error fault := by
  cases h <;> simp [*]

theorem eq_overflow_iff : result = .error .overflow ↔
    ∃ e x, parse canonical = .ok e ∧ e.value = .ok x ∧ x.isInf = true := by
  cases h with
  | finite hp hv hx => simp [hp, hv, Binary64.isInf_of_isFinite hx]
  | _ => simp [*]

theorem eq_some_iff {v : Float} : result = .ok (some v) ↔
    ∃ e x, parse canonical = .ok e ∧ e.value = .ok x ∧ x.isFinite = true ∧
      v = if 1e-12 ≤ x.abs then x else 0 := by
  cases h with
  | @infinite e x hp hv hx =>
      have hf : x.isFinite ≠ true := fun hf => by simp [Binary64.isInf_of_isFinite hf] at hx
      simp [hp, hv, hf]
  | finite hp hv hx => simpa [hp, hv, hx] using eq_comm
  | _ => simp [*]

end Ending

section

variable {mode : AngleMode} {raw : String}

theorem evaluate_eq_none_iff : evaluate mode raw = .ok none ↔ isBlank raw = true := by
  cases hb : isBlank raw with
  | true => simp [evaluate, hb]
  | false => simpa using (ending_evaluate hb).ne_none

/-- A failure or a value comes from a text that is not blank. -/
theorem evaluate_eq_iff {result : Except Fault (Option Float)} {p : Prop} (hne : result ≠ .ok none)
    (h : isBlank raw = false → (evaluate mode raw = result ↔ p)) :
    evaluate mode raw = result ↔ isBlank raw = false ∧ p := by
  cases hb : isBlank raw with
  | true => simp [evaluate, hb, hne.symm]
  | false => simp [h hb]

theorem isResult_of_evaluate {v : Float} (h : evaluate mode raw = .ok (some v)) : IsResult v := by
  cases hb : isBlank raw with
  | true => simp [evaluate, hb] at h
  | false =>
      obtain ⟨e, x, -, -, hx, rfl⟩ := (ending_evaluate hb).eq_some_iff.mp h
      exact isResult_of_isFinite hx

end

/-- A text is blank, or rejected, or has a part outside a domain, or is infinite, or has a result;
nothing that was built from postfix order is rejected when it is valued, and no value is not a number. -/
theorem evaluate_outcome (mode : AngleMode) (raw : String) :
    (evaluate mode raw = .ok none ↔ isBlank raw = true) ∧
    (∀ g, evaluate mode raw = .error (.grammar g) ↔
      isBlank raw = false ∧ Rejected (Canonical.text mode raw.toList) g) ∧
    ((∃ d, evaluate mode raw = .error (.domain d)) ↔
      isBlank raw = false ∧ ∃ e fault,
        parse (Canonical.text mode raw.toList) = .ok e ∧ e.value = .error fault) ∧
    (evaluate mode raw = .error .overflow ↔
      isBlank raw = false ∧ ∃ e x, parse (Canonical.text mode raw.toList) = .ok e ∧ e.value = .ok x ∧
        x.isInf = true) ∧
    (∀ v, evaluate mode raw = .ok (some v) ↔
      isBlank raw = false ∧ ∃ e x, parse (Canonical.text mode raw.toList) = .ok e ∧ e.value = .ok x ∧
        x.isFinite = true ∧ v = if 1e-12 ≤ x.abs then x else 0) ∧
    (∀ v, evaluate mode raw = .ok (some v) → IsResult v) ∧
    (∀ order e g, Expr.ofPostfixOrder order = .ok e → e.value ≠ .error (.grammar g)) ∧
    ∀ e x, Expr.value e = .ok x → x.isNaN = false := by
  refine ⟨evaluate_eq_none_iff, fun g => ?_, ?_, ?_, fun v => ?_, fun v => isResult_of_evaluate, ?_,
    fun e x => Expr.isNaN_of_value⟩
  · rw [← parse_eq_error_iff]
    exact evaluate_eq_iff (by simp) fun hb => (ending_evaluate hb).eq_grammar_iff
  · cases hb : isBlank raw with
    | true => simp [evaluate, hb]
    | false => simp [(ending_evaluate hb).exists_eq_domain_iff]
  · exact evaluate_eq_iff (by simp) fun hb => (ending_evaluate hb).eq_overflow_iff
  · exact evaluate_eq_iff (by simp) fun hb => (ending_evaluate hb).eq_some_iff
  · intro order e g he hv
    obtain ⟨d, hd⟩ := (Expr.normal_of_ofPostfixOrder he).failsInDomain _ hv
    cases hd

end DeskCalculator
