import DeskCalculator.Proofs.Expr.Leaves

/-!
# The calls of an expression

An expression calls the functions whose names stand in its text, each as often as it is named, and in the
text a name has a parenthesis behind it just if it names a function.
-/

namespace DeskCalculator

open DeskCalculator.Except

/-! ## Names of functions -/

namespace Token

/-- The function that the token names. -/
def function? : Token → Option NamedFunction
  | name n => NamedFunction.ofName? n
  | _ => none

@[simp] theorem function?_constant (c : Constant) : (name c.name).function? = none := by
  cases c <;> rfl

@[simp] theorem function?_function (f : NamedFunction) : (name f.name).function? = some f := by
  simp [function?]

theorem function?_eq_some_iff {t : Token} {f : NamedFunction} :
    t.function? = some f ↔ t = name f.name := by
  cases t with
  | name n => simp [function?, NamedFunction.ofName?_eq_some_iff]
  | _ => simp [function?]

end Token

/-- The functions that the tokens name, in their order. -/
def functions (ts : List Token) : List NamedFunction := ts.filterMap Token.function?

theorem functions_nil : functions [] = [] := rfl

theorem functions_append (ts us : List Token) : functions (ts ++ us) = functions ts ++ functions us :=
  List.filterMap_append

theorem functions_cons_of_none {t : Token} (h : t.function? = none) (ts : List Token) :
    functions (t :: ts) = functions ts :=
  List.filterMap_cons_none h

/-! ## Calls -/

namespace Expr

mutual

/-- The functions that are called in the expression, each behind those that are called in its argument. -/
def calls : Expr → List NamedFunction
  | .number _ | .constant _ => []
  | .negation e => e.calls
  | .chain head links => head.calls ++ linkCalls links
  | .tower members => memberCalls members
  | .call f argument => argument.calls ++ [f]

def linkCalls : List (Op × Expr) → List NamedFunction
  | [] => []
  | (_, e) :: links => e.calls ++ linkCalls links

def memberCalls : List Expr → List NamedFunction
  | [] => []
  | e :: rest => e.calls ++ memberCalls rest

end

theorem linkCalls_append (links : List (Op × Expr)) (op : Op) (e : Expr) :
    linkCalls (links ++ [(op, e)]) = linkCalls links ++ e.calls := by
  induction links with
  | nil => simp [linkCalls]
  | cons link links ih => simp [linkCalls, ih]

namespace Built

theorem calls_negate (x : Built) : x.negate.expr.calls = x.expr.calls := by
  obtain ⟨e, n⟩ := x
  cases e with
  | negation e => simp only [negate, calls]
  | _ => rfl

theorem calls_raise (a b : Built) : (a.raise b).expr.calls = a.expr.calls ++ b.expr.calls := by
  obtain ⟨e, n⟩ := b
  cases e with
  | tower members => simp only [raise, calls, memberCalls]
  | _ => simp only [raise, calls, memberCalls, List.append_nil]

theorem calls_link (o : Op) (a b : Built) : (a.link o b).expr.calls = a.expr.calls ++ b.expr.calls := by
  obtain ⟨e, n⟩ := a
  cases e with
  | chain head links => simp only [link, calls, linkCalls_append, List.append_assoc]
  | _ => simp only [link, calls, linkCalls, List.append_nil]

end Built

/-- The calls of the expressions on a stack, those of the lowest first. -/
def stackCalls (stack : List Built) : List NamedFunction :=
  stack.reverse.flatMap fun x => x.expr.calls

theorem stackCalls_cons (x : Built) (stack : List Built) :
    stackCalls (x :: stack) = stackCalls stack ++ x.expr.calls := by
  simp [stackCalls]

theorem Pushes.calls {t : Token} {stack stack' : List Built} (h : Pushes t stack stack') :
    stackCalls stack' = stackCalls stack ++ functions [t] := by
  cases h with
  | number x stack => simp [stackCalls_cons, Built.leaf, Expr.calls, functions, Token.function?]
  | constant c stack => simp [stackCalls_cons, Built.leaf, Expr.calls, functions]
  | call f x stack => simp [stackCalls_cons, Built.call, Expr.calls, functions]
  | negation x stack => simp [stackCalls_cons, Built.calls_negate, functions, Token.function?]
  | power a b stack => simp [stackCalls_cons, Built.calls_raise, functions, Token.function?]
  | op o a b stack => simp [stackCalls_cons, Built.calls_link, functions, Token.function?]

theorem calls_of_pushAll {order : List Token} {stack stack' : List Built}
    (h : pushAll stack order = .ok stack') :
    stackCalls stack' = stackCalls stack ++ functions order := by
  induction order generalizing stack with
  | nil =>
      obtain rfl := Except.ok.inj h
      simp [functions]
  | cons t order ih =>
      obtain ⟨stack₁, h₁, h⟩ := bind_eq_ok_iff.mp h
      rw [ih h, (pushes_of_push h₁).calls, List.append_assoc, ← functions_append, List.singleton_append]

theorem calls_of_ofPostfixOrder {order : List Token} {e : Expr} (h : ofPostfixOrder order = .ok e) :
    e.calls = functions order := by
  obtain ⟨stack, hs, h⟩ := bind_eq_ok_iff.mp h
  match stack, h with
  | [x], h =>
      obtain rfl := Except.ok.inj h
      simpa [stackCalls] using calls_of_pushAll hs

end Expr

/-! ## Names in the text -/

namespace Grammar

/-- Putting a phrase in order only moves the names of functions behind their arguments. -/
theorem Derives.functions_perm {c : Category} {ts : List Token} {t : ParseTree} (h : Derives c ts t) :
    (functions t.postorder).Perm (functions (c.before ++ ts)) := by
  have hoperand : ∀ l : Level, l.operand.before = [] := by
    rintro (_ | _) <;> rfl
  have hfirst (f : NamedFunction) (ts : List Token) :
      functions (.name f.name :: ts) = f :: functions ts := by
    simp [functions]
  induction h with
  | number | constant => exact .refl _
  | @call f ts t _ ih =>
      simp only [ParseTree.postorder, Category.before, List.nil_append, functions_append, hfirst,
        functions_nil, @functions_cons_of_none .opening rfl, @functions_cons_of_none .closing rfl,
        List.append_nil] at ih ⊢
      exact (List.perm_append_singleton f _).trans (ih.cons f)
  | group _ ih =>
      simpa only [ParseTree.postorder, Category.before, List.nil_append, functions_append, functions_nil,
        @functions_cons_of_none .opening rfl, @functions_cons_of_none .closing rfl,
        List.append_nil] using ih
  | bare _ ih | unsigned _ ih | plus _ ih => exact ih
  | raised _ _ iha ihb =>
      simp only [ParseTree.postorder, Category.before, List.nil_append, functions_append, functions_nil,
        @functions_cons_of_none .power rfl, List.append_nil] at iha ihb ⊢
      exact iha.append ihb
  | minus _ ih =>
      simpa only [ParseTree.postorder, Category.before, List.nil_append, functions_append, functions_nil,
        @functions_cons_of_none (.op .sub) rfl, @functions_cons_of_none .negation rfl,
        List.append_nil] using ih
  | chain _ _ iha ihb =>
      rw [hoperand, List.nil_append] at iha
      simp only [Category.before, List.nil_append, functions_append] at ihb ⊢
      exact ihb.trans (iha.append_right _)
  | done => simp [Category.before]
  | @join l o _ _ _ _ _ _ _ _ iha ihb =>
      rw [hoperand, List.nil_append] at iha
      simp only [ParseTree.postorder, Category.before, functions_append, functions_nil,
        @functions_cons_of_none (.op o) rfl, List.append_assoc] at ihb ⊢
      exact ihb.trans ((iha.append_right _).append_left _)

end Grammar

theorem Expr.calls_perm {ts order : List Token} {e : Expr} (ho : PostfixOrder.ofTokens ts = .ok order)
    (he : ofPostfixOrder order = .ok e) : e.calls.Perm (functions ts) := by
  obtain ⟨t, hs, rfl⟩ := Grammar.exists_sentence ho
  rw [calls_of_ofPostfixOrder he]
  exact hs.functions_perm

/-! ## Parentheses behind names -/

/-- The token is a number or a name. -/
def Token.isWord : Token → Bool
  | number _ | name _ => true
  | _ => false

namespace PostfixOrder.State

/-- A name or a number that names no function is a value. -/
theorem afterValue_of_step {s s' : State} {t : Token} {next : Option Token} (ht : t.isWord = true)
    (hf : t.function? = none) (h : s.step t next = .ok s') : s'.afterValue = true := by
  have hvalue : s.value t = .ok s' := by
    cases t with
    | number x => exact h
    | name n =>
        have hf : NamedFunction.ofName? n = none := hf
        simp only [step, name, hf] at h
        split at h
        · cases h
        split at h
        · exact h
        · cases h
    | _ => cases ht
  unfold value at hvalue
  split at hvalue
  · cases hvalue
  · obtain rfl := Except.ok.inj hvalue
    rfl

theorem next_of_step {s s' : State} {f : NamedFunction} {next : Option Token}
    (h : s.step (.name f.name) next = .ok s') : next = some .opening := by
  simp only [step, name, NamedFunction.ofName?_name] at h
  split at h
  · cases h
  split at h
  · assumption
  · cases h

theorem afterValue_of_step_opening {s s' : State} {next : Option Token}
    (h : s.step .opening next = .ok s') :
    s.afterValue = false := by
  cases hv : s.afterValue with
  | false => rfl
  | true => simp [step, openParenthesis, hv] at h

/-- Behind a name or a number there is a parenthesis just if it names a function. -/
theorem head?_eq_opening_iff {s s' : State} {t : Token} {rest : List Token}
    (h : s.run (t :: rest) = .ok s') (ht : t.isWord = true) :
    rest.head? = some .opening ↔ t.function?.isSome = true := by
  obtain ⟨s₁, h₁, h⟩ := bind_eq_ok_iff.mp h
  cases hf : t.function? with
  | some f =>
      obtain rfl := Token.function?_eq_some_iff.mp hf
      exact iff_of_true (next_of_step h₁) rfl
  | none =>
      refine iff_of_false (fun ho => ?_) Bool.false_ne_true
      obtain ⟨rest, rfl⟩ := List.head?_eq_some_iff.mp ho
      obtain ⟨s₂, h₂, -⟩ := bind_eq_ok_iff.mp h
      exact absurd (afterValue_of_step ht hf h₁) (by simp [afterValue_of_step_opening h₂])

end PostfixOrder.State

end DeskCalculator
