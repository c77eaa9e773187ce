import DeskCalculator.Proofs.Evaluation

/-!
# The leaves of an expression

The numbers and constants of an expression stand in it from left to right as they stand in the text.
What was put in order is always built, unless it is too deep, and no leaf is lost, added or moved on the
way.
-/

namespace DeskCalculator

open DeskCalculator.Except

/-! ## Leaves -/

/-- A number or a constant. -/
def Token.isLeaf : Token → Bool
  | number _ => true
  | name n => (Constant.ofName? n).isSome
  | _ => false

namespace Token

@[simp] theorem isLeaf_constant (c : Constant) : (name c.name).isLeaf = true := by
  simp [isLeaf]

@[simp] theorem isLeaf_function (f : NamedFunction) : (name f.name).isLeaf = false := by
  simp [isLeaf, Constant.ofName?_functionName]

end Token

namespace Expr

mutual

/-- The leaves of an expression from left to right. -/
def leaves : Expr → List Token
  | .number x => [.number x]
  | .constant c => [.name c.name]
  | .negation e => e.leaves
  | .chain head links => head.leaves ++ linkLeaves links
  | .tower members => memberLeaves members
  | .call _ argument => argument.leaves

def linkLeaves : List (Op × Expr) → List Token
  | [] => []
  | (_, e) :: links => e.leaves ++ linkLeaves links

def memberLeaves : List Expr → List Token
  | [] => []
  | e :: rest => e.leaves ++ memberLeaves rest

end

theorem linkLeaves_append (links : List (Op × Expr)) (op : Op) (e : Expr) :
    linkLeaves (links ++ [(op, e)]) = linkLeaves links ++ e.leaves := by
  induction links with
  | nil => simp [linkLeaves]
  | cons link links ih => simp [linkLeaves, ih]

/-! ## Leaves of what is built -/

namespace Built

theorem leaves_negate (x : Built) : x.negate.expr.leaves = x.expr.leaves := by
  obtain ⟨e, n⟩ := x
  cases e with
  | negation e => simp only [negate, leaves]
  | _ => rfl

theorem leaves_raise (a b : Built) : (a.raise b).expr.leaves = a.expr.leaves ++ b.expr.leaves := by
  obtain ⟨e, n⟩ := b
  cases e with
  | tower members => simp only [raise, leaves, memberLeaves]
  | _ => simp only [raise, leaves, memberLeaves, List.append_nil]

theorem leaves_link (o : Op) (a b : Built) :
    (a.link o b).expr.leaves = a.expr.leaves ++ b.expr.leaves := by
  obtain ⟨e, n⟩ := a
  cases e with
  | chain head links => simp only [link, leaves, linkLeaves_append, List.append_assoc]
  | _ => simp only [link, leaves, linkLeaves, List.append_nil]

end Built

/-- The leaves of the expressions on a stack, those of the lowest first. -/
def stackLeaves (stack : List Built) : List Token :=
  stack.reverse.flatMap fun x => x.expr.leaves

theorem stackLeaves_cons (x : Built) (stack : List Built) :
    stackLeaves (x :: stack) = stackLeaves stack ++ x.expr.leaves := by
  simp [stackLeaves]

theorem Pushes.leaves {t : Token} {stack stack' : List Built} (h : Pushes t stack stack') :
    stackLeaves stack' = stackLeaves stack ++ [t].filter Token.isLeaf := by
  cases h with
  | number x stack => simp [stackLeaves_cons, Built.leaf, Expr.leaves, List.filter_cons, Token.isLeaf]
  | constant c stack => simp [stackLeaves_cons, Built.leaf, Expr.leaves]
  | call f x stack => simp [stackLeaves_cons, Built.call, Expr.leaves]
  | negation x stack => simp [stackLeaves_cons, Built.leaves_negate, Token.isLeaf]
  | power a b stack => simp [stackLeaves_cons, Built.leaves_raise, Token.isLeaf]
  | op o a b stack => simp [stackLeaves_cons, Built.leaves_link, Token.isLeaf]

theorem leaves_of_pushAll {order : List Token} {stack stack' : List Built}
    (h : pushAll stack order = .ok stack') :
    stackLeaves stack' = stackLeaves stack ++ order.filter Token.isLeaf := by
  induction order generalizing stack with
  | nil =>
      obtain rfl := Except.ok.inj h
      simp
  | cons t order ih =>
      obtain ⟨stack₁, h₁, h⟩ := bind_eq_ok_iff.mp h
      have hfilter :
          (t :: order).filter Token.isLeaf = [t].filter Token.isLeaf ++ order.filter Token.isLeaf := by
        rw [← List.filter_append, List.singleton_append]
      rw [ih h, (pushes_of_push h₁).leaves, hfilter, List.append_assoc]

theorem leaves_of_ofPostfixOrder {order : List Token} {e : Expr} (h : ofPostfixOrder order = .ok e) :
    e.leaves = order.filter Token.isLeaf := by
  obtain ⟨stack, hs, h⟩ := bind_eq_ok_iff.mp h
  match stack, h with
  | [x], h =>
      obtain rfl := Except.ok.inj h
      simpa [stackLeaves] using leaves_of_pushAll hs

end Expr

/-! ## Leaves of what is put in order -/

namespace Grammar

/-- The tokens in front of a phrase of the category that belong to its tree. -/
def Category.before : Category → List Token
  | .rest _ left => left.postorder
  | _ => []

/-- Putting a phrase in order moves only what is no leaf. -/
theorem Derives.leaves {c : Category} {ts : List Token} {t : ParseTree} (h : Derives c ts t) :
    t.postorder.filter Token.isLeaf = (c.before ++ ts).filter Token.isLeaf := by
  have hoperand : ∀ l : Level, l.operand.before = [] := by
    rintro (_ | _) <;> rfl
  induction h with
  | number x => rfl
  | constant c => rfl
  | call _ ih =>
      have hopening : Token.opening.isLeaf = false := rfl
      have hclosing : Token.closing.isLeaf = false := rfl
      simp_all [ParseTree.postorder, Category.before]
  | _ => simp_all [ParseTree.postorder, Category.before, Token.isLeaf]

end Grammar

namespace Expr

/-- What was put in order has an expression with the leaves of the text, or is too deep; it fails for no other
reason. -/
theorem ofPostfixOrder_of_ofTokens {ts order : List Token} (h : PostfixOrder.ofTokens ts = .ok order) :
    ofPostfixOrder order = .error .tooDeep ∨
      ∃ e, ofPostfixOrder order = .ok e ∧ e.leaves = ts.filter Token.isLeaf := by
  obtain ⟨t, hs, rfl⟩ := Grammar.exists_sentence h
  rcases ofPostfixOrder_postorder t with hdeep | ⟨e, he, -⟩
  · exact .inl hdeep
  · refine .inr ⟨e, he, ?_⟩
    rw [leaves_of_ofPostfixOrder he, hs.leaves]
    rfl

/-- The signs of `--(8-pi)` cancel and its parentheses go, and the leaves stay. -/
theorem ofPostfixOrder_of_cancelled_signs :
    PostfixOrder.ofTokens
        [.op .sub, .op .sub, .opening, .number 8, .op .sub, .name "math.pi", .closing] =
      .ok [.number 8, .name "math.pi", .op .sub, .negation, .negation] ∧
      (ofPostfixOrder [.number 8, .name "math.pi", .op .sub, .negation, .negation] = .error .tooDeep ∨
        ∃ e, ofPostfixOrder [.number 8, .name "math.pi", .op .sub, .negation, .negation] = .ok e ∧
          e.leaves = [.number 8, .name "math.pi"]) :=
  ⟨rfl, @ofPostfixOrder_of_ofTokens
    [.op .sub, .op .sub, .opening, .number 8, .op .sub, .name "math.pi", .closing] _ rfl⟩

end Expr

end DeskCalculator
