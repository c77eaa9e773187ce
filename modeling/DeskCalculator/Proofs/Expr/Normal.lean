import DeskCalculator.Expr.OfPostfixOrder
import DeskCalculator.Proofs.Except

/-!
# Expressions in normal form

What is built from postfix order is as flat as it can be: no chain starts with a chain, no tower ends
with a tower, and no negation stands directly under a negation.
-/

namespace DeskCalculator.Expr

open DeskCalculator.Except

/-! ## Normal form -/

def isNegation : Expr → Bool
  | .negation _ => true
  | _ => false

def isChain : Expr → Bool
  | .chain .. => true
  | _ => false

def isTower : Expr → Bool
  | .tower _ => true
  | _ => false

mutual

/-- Nothing in the expression could be joined to what it stands in. -/
def Normal : Expr → Prop
  | .number _ | .constant _ => True
  | .negation e => e.Normal ∧ e.isNegation = false
  | .chain head links => head.Normal ∧ head.isChain = false ∧ links ≠ [] ∧ NormalLinks links
  | .tower members => 2 ≤ members.length ∧ members.getLast?.all (!isTower ·) = true ∧ NormalAll members
  | .call _ argument => argument.Normal

def NormalLinks : List (Op × Expr) → Prop
  | [] => True
  | (_, e) :: links => e.Normal ∧ NormalLinks links

def NormalAll : List Expr → Prop
  | [] => True
  | e :: rest => e.Normal ∧ NormalAll rest

end

theorem NormalLinks.append {links : List (Op × Expr)} {op : Op} {e : Expr} (h : NormalLinks links)
    (he : e.Normal) : NormalLinks (links ++ [(op, e)]) := by
  induction links with
  | nil => exact ⟨he, trivial⟩
  | cons link links ih => exact ⟨h.1, ih h.2⟩

/-! ## What is built is normal -/

namespace Built

theorem call_normal {f : NamedFunction} {x : Built} (h : x.expr.Normal) : (x.call f).expr.Normal := h

theorem negate_normal {x : Built} (h : x.expr.Normal) : x.negate.expr.Normal := by
  obtain ⟨e, n⟩ := x
  cases e with
  | negation e => exact h.1
  | _ => exact ⟨h, rfl⟩

theorem raise_normal {a b : Built} (ha : a.expr.Normal) (hb : b.expr.Normal) :
    (a.raise b).expr.Normal := by
  obtain ⟨e, n⟩ := b
  cases e with
  | tower members =>
      obtain ⟨hlen, hlast, hall⟩ := hb
      cases members with
      | nil => simp at hlen
      | cons m members =>
          refine ⟨by simp, ?_, ha, hall⟩
          simpa only [List.getLast?_cons_cons] using hlast
  | _ => exact ⟨by simp, rfl, ha, hb, trivial⟩

theorem link_normal {op : Op} {a b : Built} (ha : a.expr.Normal) (hb : b.expr.Normal) :
    (a.link op b).expr.Normal := by
  obtain ⟨e, n⟩ := a
  cases e with
  | chain head links => exact ⟨ha.1, ha.2.1, by simp, ha.2.2.2.append hb⟩
  | _ => exact ⟨ha, rfl, by simp, hb, trivial⟩

end Built

theorem pushBuilt_eq_ok_iff {x : Built} {stack stack' : List Built} :
    pushBuilt x stack = .ok stack' ↔ x.height ≤ maxHeight ∧ stack' = x :: stack := by
  unfold pushBuilt
  split
  · rename_i h
    simp [Nat.not_le.mpr h]
  · rename_i h
    simp [Nat.not_lt.mp h, eq_comm]

theorem pushBuilt_eq_error_iff {x : Built} {stack : List Built} :
    pushBuilt x stack = .error .tooDeep ↔ maxHeight < x.height := by
  unfold pushBuilt
  split <;> simp [*]

/-- One token on a stack: what it pushes, in place of which values. -/
inductive Pushes : Token → List Built → List Built → Prop
  | number (x : Float) (stack : List Built) : Pushes (.number x) stack (.leaf (.number x) :: stack)
  | constant (c : Constant) (stack : List Built) :
      Pushes (.name c.name) stack (.leaf (.constant c) :: stack)
  | call (f : NamedFunction) (x : Built) (stack : List Built) :
      Pushes (.name f.name) (x :: stack) (x.call f :: stack)
  | negation (x : Built) (stack : List Built) : Pushes .negation (x :: stack) (x.negate :: stack)
  | power (a b : Built) (stack : List Built) : Pushes .power (b :: a :: stack) (a.raise b :: stack)
  | op (o : Op) (a b : Built) (stack : List Built) :
      Pushes (.op o) (b :: a :: stack) (a.link o b :: stack)

theorem Pushes.push_eq {t : Token} {stack under : List Built} {x : Built}
    (h : Pushes t stack (x :: under)) :
    push stack t = pushBuilt x under := by
  cases h with
  | constant c stack => simp [push]
  | call f x stack =>
      have hc := Constant.ofName?_functionName f
      simp [push, hc]
  | _ => rfl

/-- A token pushes one expression, unless it is unknown or lacks operands. -/
theorem pushes_or_fails (stack : List Built) (t : Token) :
    (∃ x under, Pushes t stack (x :: under)) ∨
    ∃ fault, push stack t = .error fault ∧ fault ≠ .tooDeep := by
  cases t with
  | number x => exact .inl ⟨_, _, .number x stack⟩
  | name n =>
      cases hc : Constant.ofName? n with
      | some c =>
          obtain rfl := Constant.ofName?_eq_some_iff.mp hc
          exact .inl ⟨_, _, .constant c stack⟩
      | none =>
          cases hf : NamedFunction.ofName? n with
          | none => exact .inr ⟨.unknownName n, by simp only [push, hc, hf], nofun⟩
          | some f =>
              obtain rfl := NamedFunction.ofName?_eq_some_iff.mp hf
              cases stack with
              | nil => exact .inr ⟨.missingArgument f.name, by simp only [push, hc, hf], nofun⟩
              | cons x rest => exact .inl ⟨_, _, .call f x rest⟩
  | op o =>
      match stack with
      | [] | [_] => exact .inr ⟨.malformedExpression, rfl, nofun⟩
      | b :: a :: rest => exact .inl ⟨_, _, .op o a b rest⟩
  | power =>
      match stack with
      | [] | [_] => exact .inr ⟨.malformedExpression, rfl, nofun⟩
      | b :: a :: rest => exact .inl ⟨_, _, .power a b rest⟩
  | negation =>
      match stack with
      | [] => exact .inr ⟨.malformedExpression, rfl, nofun⟩
      | x :: rest => exact .inl ⟨_, _, .negation x rest⟩
  | opening | closing => exact .inr ⟨.parenthesisInPostfixOrder, rfl, nofun⟩

theorem pushes_of_push {t : Token} {stack stack' : List Built} (h : push stack t = .ok stack') :
    Pushes t stack stack' := by
  rcases pushes_or_fails stack t with ⟨x, under, hp⟩ | ⟨fault, he, -⟩
  · rw [hp.push_eq] at h
    obtain rfl := (pushBuilt_eq_ok_iff.mp h).2
    exact hp
  · rw [he] at h
    cases h

theorem Pushes.normal {t : Token} {stack stack' : List Built} (h : Pushes t stack stack')
    (hs : ∀ x ∈ stack, x.expr.Normal) : ∀ x ∈ stack', x.expr.Normal := by
  cases h with
  | number _ _ | constant _ _ => simpa [Built.leaf, Normal] using hs
  | call f x stack =>
      simp only [List.forall_mem_cons] at hs ⊢
      exact ⟨Built.call_normal hs.1, hs.2⟩
  | negation x stack =>
      simp only [List.forall_mem_cons] at hs ⊢
      exact ⟨Built.negate_normal hs.1, hs.2⟩
  | power a b stack =>
      simp only [List.forall_mem_cons] at hs ⊢
      exact ⟨Built.raise_normal hs.2.1 hs.1, hs.2.2⟩
  | op o a b stack =>
      simp only [List.forall_mem_cons] at hs ⊢
      exact ⟨Built.link_normal hs.2.1 hs.1, hs.2.2⟩

end DeskCalculator.Expr
