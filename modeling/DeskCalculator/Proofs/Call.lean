import DeskCalculator.Proofs.Binary64.NotANumber
import DeskCalculator.Proofs.Canonical.Text
import DeskCalculator.Proofs.Evaluation
import DeskCalculator.Proofs.Token.Lexer

/-!
# Functions in an angle mode

In degrees a trigonometric function converts its argument, and an inverse one its result. What is
written around the argument of a call makes exactly these conversions.
-/

namespace DeskCalculator

open DeskCalculator.Except Grammar Canonical Character

/-! ## Conversions -/

inductive Conversion where
  | none
  | argument
  | result

def conversion : AngleMode → NamedFunction → Conversion
  | .degrees, .sin | .degrees, .cos | .degrees, .tan => .argument
  | .degrees, .asin | .degrees, .acos | .degrees, .atan => .result
  | _, _ => .none

/-- The function as the user means it in the mode. -/
def NamedFunction.applyIn (mode : AngleMode) (f : NamedFunction) (x : Float) : Except Fault Float :=
  match conversion mode f with
  | .none => f.apply x
  | .argument => f.apply (x * Constant.pi.value / 180)
  | .result => do return (← f.apply x) * 180 / Constant.pi.value

/-- The parse tree of a call with the conversions of the mode. -/
def callTree (mode : AngleMode) (f : NamedFunction) (t : ParseTree) : ParseTree :=
  match conversion mode f with
  | .none => .call f t
  | .argument => .call f (.binary .div (.binary .mul (.group t) (.constant .pi)) (.number 180))
  | .result => .group (.binary .div (.binary .mul (.call f t) (.number 180)) (.constant .pi))

theorem ParseTree.isNaN_of_value {t : ParseTree} {x : Float} (h : t.value = .ok x) :
    x.isNaN = false := by
  induction t generalizing x with
  | number | constant => exact Expr.isNaN_of_defined h
  | call f t ih =>
      obtain ⟨_, _, h⟩ := bind_eq_ok_iff.mp h
      exact NamedFunction.isNaN_of_apply h
  | group t ih | plus t ih => exact ih h
  | minus t ih =>
      obtain ⟨_, _, h⟩ := bind_eq_ok_iff.mp h
      exact Expr.isNaN_of_defined h
  | power a b | binary o a b =>
      simp only [value, bind_eq_ok_iff] at h
      obtain ⟨_, _, _, _, h⟩ := h
      first
      | exact Expr.isNaN_of_defined h
      | obtain ⟨_, _, h⟩ := h
        exact Expr.isNaN_of_defined h

/-! ## Values of conversions -/

theorem isNonzeroFinite_pi : Binary64.isNonzeroFinite Constant.pi.value = true := by decide +kernel

theorem isNonzeroFinite_180 : Binary64.isNonzeroFinite 180 = true := by decide +kernel

theorem value_quotient {t u : ParseTree} {x y : Float} (ht : t.value = .ok x) (hu : u.value = .ok y)
    (hy : Binary64.isNonzeroFinite y = true) (h0 : (y == 0) = false) :
    (ParseTree.binary .div t u).value = .ok (x / y) := by
  have hxy := Binary64.isNaN_div (ParseTree.isNaN_of_value ht) hy
  simp only [ParseTree.value, ht, hu, ok_bind, Op.apply, h0, Bool.false_eq_true, if_false,
    Expr.defined_of_isNaN hxy]

theorem value_scaled (t : ParseTree) {u v : ParseTree} {y z : Float} (hu : u.value = .ok y)
    (hv : v.value = .ok z) (hy : Binary64.isNonzeroFinite y = true)
    (hz : Binary64.isNonzeroFinite z = true) (h0 : (z == 0) = false) :
    (ParseTree.binary .div (.binary .mul t u) v).value = (do return (← t.value) * y / z) := by
  cases ht : t.value with
  | error fault => simp [ParseTree.value, ht]
  | ok x =>
      have hxy := Binary64.isNaN_mul (ParseTree.isNaN_of_value ht) hy
      have hm : (ParseTree.binary .mul t u).value = .ok (x * y) := by
        simp only [ParseTree.value, ht, hu, ok_bind, Op.apply, Expr.defined_of_isNaN hxy]
      exact value_quotient hm hv hz h0

theorem value_constant (c : Constant) : (ParseTree.constant c).value = .ok c.value := by
  cases c <;> exact Expr.defined_of_isNaN (by decide +kernel)

theorem value_180 : (ParseTree.number 180).value = .ok 180 :=
  Expr.defined_of_isNaN (by decide +kernel)

theorem value_callTree (mode : AngleMode) (f : NamedFunction) (t : ParseTree) :
    (callTree mode f t).value = (do f.applyIn mode (← t.value)) := by
  have hpi : (Constant.pi.value == 0) = false := by decide +kernel
  have h180 : ((180 : Float) == 0) = false := by decide +kernel
  unfold callTree NamedFunction.applyIn
  cases conversion mode f with
  | none => rfl
  | argument =>
      have h := value_scaled (.group t) (value_constant .pi) value_180 isNonzeroFinite_pi
        isNonzeroFinite_180 h180
      rw [ParseTree.value, h, ParseTree.value, bind_assoc]
      rfl
  | result =>
      have h := value_scaled (.call f t) value_180 (value_constant .pi) isNonzeroFinite_180
        isNonzeroFinite_pi hpi
      rw [ParseTree.value, h, ParseTree.value, bind_assoc]

/-! ## Tokens -/

theorem isName_of_function (f : NamedFunction) : isName f.name.toList = true := by
  cases f <;> decide

theorem isName_of_constant (c : Constant) : isName c.name.toList = true := by
  cases c <;> decide

theorem tokens_argumentConversion : tokens "*math.pi/180".toList =
    .ok [.op .mul, .name "math.pi", .op .div, .number 180] := by
  decide +kernel

theorem tokens_resultConversion : tokens "*180/math.pi".toList =
    .ok [.op .mul, .number 180, .op .div, .name "math.pi"] := by
  decide +kernel

theorem noNameHead_mark {c : Char} (hc : c ∈ marks) (rest : List Char) : NoNameHead (c :: rest) := by
  have hm : ∀ c ∈ marks, isNamePart c = false ∧ c ≠ '.' := forall_mem_of_all (by decide)
  intro d hd
  obtain rfl : c = d := by simpa using hd
  exact hm c hc

/-- The tokens within parentheses. -/
def grouped (ts : List Token) : List Token := Token.opening :: (ts ++ [Token.closing])

/-- The tokens as the argument of the function. -/
def called (f : NamedFunction) (ts : List Token) : List Token := .name f.name :: grouped ts

/-- The tokens of a call with the conversion. -/
def Conversion.call (c : Conversion) (f : NamedFunction) (ts : List Token) : List Token :=
  match c with
  | .none => called f ts
  | .argument => called f (grouped ts ++ [.op .mul, .name "math.pi", .op .div, .number 180])
  | .result => grouped (called f ts ++ [.op .mul, .number 180, .op .div, .name "math.pi"])

theorem derives_callTree (mode : AngleMode) (f : NamedFunction) {ts : List Token} {t : ParseTree}
    (hd : Sentence ts t) :
    Derives .atom ((conversion mode f).call f ts) (callTree mode f t) := by
  unfold callTree
  cases conversion mode f with
  | none => exact .call hd
  | argument =>
      have hquotient := Derives.quotient_of_atoms (.group hd) (.constant .pi) (.number 180)
      rw [List.append_assoc] at hquotient
      exact .call hquotient
  | result =>
      have hquotient := Derives.quotient_of_atoms (.call (f := f) hd) (.number 180) (.constant .pi)
      rw [List.append_assoc] at hquotient
      exact .group hquotient

section

variable (text rest : List Char)

theorem tokens_grouped :
    tokens ('(' :: (text ++ ')' :: rest)) = (do return grouped (← tokens text) ++ (← tokens rest)) := by
  rw [tokens_opening, tokens_closing]
  cases tokens text <;> cases tokens rest <;> simp [grouped]

theorem tokens_called (f : NamedFunction) : tokens (f.name.toList ++ '(' :: (text ++ ')' :: rest)) =
    (do return called f (← tokens text) ++ (← tokens rest)) := by
  rw [tokens_name (isName_of_function f) (noNameHead_mark (by decide) _), tokens_grouped]
  cases tokens text <;> cases tokens rest <;> simp [called]

theorem callText_eq {mode : AngleMode} {f : NamedFunction} {n : String} (h : typedName f = some n) :
    callText mode f = match conversion mode f with
      | .none => ⟨f.name.toList ++ ['('], [')']⟩
      | .argument => ⟨f.name.toList ++ ['(', '('], ')' :: ("*math.pi/180".toList ++ [')'])⟩
      | .result => ⟨'(' :: (f.name.toList ++ ['(']), ')' :: ("*180/math.pi".toList ++ [')'])⟩ := by
  cases mode <;> cases f <;> cases h <;> rfl

theorem tokens_callText {mode : AngleMode} {f : NamedFunction} {n : String} (hf : typedName f = some n) :
    tokens ((callText mode f).before ++ text ++ (callText mode f).after ++ rest) =
      (do return (conversion mode f).call f (← tokens text) ++ (← tokens rest)) := by
  rw [callText_eq hf]
  cases conversion mode f with
  | none =>
      have := tokens_called text rest f
      simpa [Conversion.call] using this
  | argument =>
      have hinner := tokens_grouped text "*math.pi/180".toList
      have := tokens_called ('(' :: (text ++ ')' :: "*math.pi/180".toList)) rest f
      rw [hinner, tokens_argumentConversion] at this
      generalize "*math.pi/180".toList = conversion at this ⊢
      simpa [Conversion.call] using this
  | result =>
      have hinner := tokens_called text "*180/math.pi".toList f
      have := tokens_grouped (f.name.toList ++ '(' :: (text ++ ')' :: "*180/math.pi".toList)) rest
      rw [hinner, tokens_resultConversion] at this
      generalize "*180/math.pi".toList = conversion at this ⊢
      simpa [Conversion.call] using this

end

end DeskCalculator
