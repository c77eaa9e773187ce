import DeskCalculator.Proofs.Composition

/-!
# Formulas

What a user can mean by a text: a tree of numbers, constants, functions, signs and operators, with
its value by recursion. It is typed with the parentheses that the strength of its operators
requires, and those that the user adds. The value of the typed text is the value of the tree.
-/

namespace DeskCalculator

open DeskCalculator.Except Grammar Canonical Character

/-! ## Words and signs -/

structure Literal where
  numeral : Numeral
  written : numeral.IsWritten

/-- A number that a percent or factorial sign may follow. -/
structure PlainLiteral extends Literal where
  plain : numeral.exponent = none

structure ConstantWord where
  constant : Constant
  word : List Char
  typed : IsTypedConstant constant word

structure FunctionWord where
  function : NamedFunction
  word : List Char
  typed : IsTyped function word

/-- How tightly the operator binds; a sign has 3 and a power 4. -/
def Op.precedence : Op → Nat
  | .add | .sub => 1
  | .mul | .div => 2

theorem Op.precedence_eq (o : Op) : o.precedence = PostfixOrder.strength o := by
  cases o <;> rfl

structure OperatorSign where
  op : Op
  sign : Char
  written : sign ∈ op.signs

namespace Literal

/-- Digits alone. -/
def ofDigits (digits : List Char) (hne : digits ≠ []) (hd : ∀ c ∈ digits, c.isDigit = true) : Literal :=
  ⟨⟨digits, false, [], none⟩, .of_digits hne hd⟩

def text (l : Literal) : List Char := l.numeral.text

/-- The nearest double. -/
def value (l : Literal) : Float := Binary64.ofBits false (Binary64.bitsOfDecimal l.numeral.decimal)

theorem value? (l : Literal) : l.numeral.value? = some l.value := by
  have hw := l.written.whole_ne_nil
  simp [Numeral.value?, hw, value]

theorem defined_value (l : Literal) : defined l.value = .ok l.value :=
  Expr.defined_of_isNaN (Binary64.isNaN_ofBits (Binary64.bitsOfDecimal_le _))

end Literal

/-! ## Trees -/

inductive Formula where
  | number (l : Literal)
  | percent (l : PlainLiteral)
  | factorial (l : PlainLiteral)
  | constant (c : ConstantWord)
  | call (f : FunctionWord) (argument : Formula)
  | group (inner : Formula)
  | power (base exponent : Formula)
  | plus (operand : Formula)
  | minus (sign : Char) (written : sign ∈ Op.sub.signs) (operand : Formula)
  | binary (o : OperatorSign) (left right : Formula)

/-- Parentheses around what binds less tightly than the place needs. -/
def enclose (least strength : Nat) (text : List Char) : List Char :=
  if least ≤ strength then text else parenthesised text

namespace Formula

def strength : Formula → Nat
  | binary o _ _ => o.op.precedence
  | plus _ | minus _ _ _ => 3
  | power _ _ => 4
  | _ => 5

/-- The tree as it is typed. -/
def text : Formula → List Char
  | number l => l.text
  | percent l => l.text ++ ['%']
  | factorial l => l.text ++ ['!']
  | constant c => c.word
  | call f a => f.word ++ parenthesised a.text
  | group a => parenthesised a.text
  | power a b => enclose 5 a.strength a.text ++ '^' :: enclose 3 b.strength b.text
  | plus a => '+' :: enclose 3 a.strength a.text
  | minus sign _ a => sign :: enclose 3 a.strength a.text
  | binary o a b =>
    enclose o.op.precedence a.strength a.text ++ o.sign ::
      enclose (o.op.precedence + 1) b.strength b.text

/-- The value of the tree in an angle mode, or the first fault from left to right. -/
def meaning (mode : AngleMode) : Formula → Except Fault Float
  | number l => .ok l.value
  | percent l => .ok (l.value / 100)
  | factorial l => NamedFunction.factorial.apply l.value
  | constant c => .ok c.constant.value
  | call f a => do f.function.applyIn mode (← a.meaning mode)
  | group a => a.meaning mode
  | power a b => do
    let x ← a.meaning mode
    let y ← b.meaning mode
    defined (x.pow y)
  | plus a => a.meaning mode
  | minus _ _ a => do return -(← a.meaning mode)
  | binary o a b => do
    let x ← a.meaning mode
    let y ← b.meaning mode
    defined (← o.op.apply x y)

end Formula

/-! ## How a formula is read -/

def encloseTree (least strength : Nat) (t : ParseTree) : ParseTree :=
  if least ≤ strength then t else .group t

theorem value_encloseTree (least strength : Nat) (t : ParseTree) :
    (encloseTree least strength t).value = t.value := by
  unfold encloseTree
  split <;> rfl

theorem ReadAs.enclose {mode : AngleMode} {raw : List Char} {t : ParseTree} {s : Nat}
    (h : ReadAs mode raw (Category.ofStrength s) t) (least : Nat) :
    ReadAs mode (enclose least s raw) (Category.ofStrength least) (encloseTree least s t) := by
  unfold DeskCalculator.enclose encloseTree
  split
  · rename_i hl
    exact h.of_le hl
  · exact (h.of_le (Nat.zero_le s)).group.of_atom least

namespace Formula

/-- The tree of tokens of the canonical text. -/
def parseTree (mode : AngleMode) : Formula → ParseTree
  | number l => .number l.value
  | percent l => .group (.binary .div (.number l.value) (.number 100))
  | factorial l => .call .factorial (.number l.value)
  | constant c => .constant c.constant
  | call f a => callTree mode f.function (a.parseTree mode)
  | group a => .group (a.parseTree mode)
  | power a b =>
    .power (encloseTree 5 a.strength (a.parseTree mode)) (encloseTree 3 b.strength (b.parseTree mode))
  | plus a => .plus (encloseTree 3 a.strength (a.parseTree mode))
  | minus _ _ a => .minus (encloseTree 3 a.strength (a.parseTree mode))
  | binary o a b =>
    .binary o.op (encloseTree o.op.precedence a.strength (a.parseTree mode))
      (encloseTree (o.op.precedence + 1) b.strength (b.parseTree mode))

theorem readAs (mode : AngleMode) (f : Formula) :
    ReadAs mode f.text (Category.ofStrength f.strength) (f.parseTree mode) := by
  induction f with
  | number l => exact ReadAs.number l.written l.value? mode
  | percent l => exact ReadAs.percent l.written l.value? mode l.plain
  | factorial l => exact ReadAs.factorial l.written l.value? mode l.plain
  | constant c => exact ReadAs.constant c.typed mode
  | call f a ih => exact (ih.of_le (Nat.zero_le _)).call f.typed
  | group a ih => exact (ih.of_le (Nat.zero_le _)).group
  | power a b iha ihb => exact (iha.enclose 5).power (ihb.enclose 3)
  | plus a ih => exact (ih.enclose 3).plus (by decide)
  | minus sign written a ih => exact (ih.enclose 3).minus written
  | binary o a b iha ihb =>
      simp only [text, parseTree, strength, Op.precedence_eq]
      have ha := iha.enclose (PostfixOrder.strength o.op)
      have hb := ihb.enclose (PostfixOrder.strength o.op + 1)
      exact ha.binary o.written hb

theorem value_parseTree (mode : AngleMode) (f : Formula) :
    (f.parseTree mode).value = f.meaning mode := by
  induction f with
  | number l => exact l.defined_value
  | percent l =>
      have h100 : ((100 : Float) == 0) = false := by decide +kernel
      have hf : Binary64.isNonzeroFinite 100 = true := by decide +kernel
      have hn : (ParseTree.number 100).value = .ok 100 := Expr.defined_of_isNaN (by decide +kernel)
      exact value_quotient l.defined_value hn hf h100
  | factorial l =>
      show (do NamedFunction.factorial.apply (← (ParseTree.number l.value).value)) = _
      rw [ParseTree.value, l.defined_value]
      rfl
  | constant c => exact value_constant c.constant
  | call f a ih => rw [parseTree, value_callTree, ih, meaning]
  | group a ih => exact ih
  | power a b iha ihb => simp only [parseTree, ParseTree.value, value_encloseTree, iha, ihb, meaning]
  | plus a ih => rw [parseTree, ParseTree.value, value_encloseTree, ih, meaning]
  | minus sign written a ih =>
      rw [parseTree, ParseTree.value, value_encloseTree, ih, meaning]
      cases hx : a.meaning mode with
      | error fault => rfl
      | ok x =>
          have hn := ParseTree.isNaN_of_value (ih.trans hx)
          exact Expr.defined_of_isNaN ((Binary64.isNaN_neg x).trans hn)
  | binary o a b iha ihb => simp only [parseTree, ParseTree.value, value_encloseTree, iha, ihb, meaning]

theorem compute_text (mode : AngleMode) (f : Formula) :
    UnlessDeep (compute (Canonical.text mode f.text)) (f.meaning mode) :=
  (f.readAs mode).compute (f.value_parseTree mode)

/-- What the user typed for the tree evaluates to its meaning, a value or a fault, unless something nests
too deep. -/
theorem evaluate_text (mode : AngleMode) (f : Formula)
    (h : evaluate mode (String.ofList f.text) ≠ .error (.grammar .tooDeep)) :
    evaluate mode (String.ofList f.text) = (do return some (← settle (← f.meaning mode))) := by
  have hb : isBlank (String.ofList f.text) = false := by
    rw [isBlank, String.toList_ofList]
    exact (f.readAs mode).visible
  simp only [evaluate, hb, String.toList_ofList, Bool.false_eq_true, if_false] at h ⊢
  have hne : compute (Canonical.text mode f.text) ≠ .error (.grammar .tooDeep) := by
    intro hc
    rw [hc] at h
    exact h rfl
  rw [f.compute_text mode hne]

/-- The tree of `3!–(2+1)×50%`. -/
def sample : Formula :=
  let two : Formula := .number (.ofDigits ['2'] (by decide) (forall_mem_of_all (by decide)))
  let one : Formula := .number (.ofDigits ['1'] (by decide) (forall_mem_of_all (by decide)))
  .binary ⟨.sub, '–', by decide⟩
    (.factorial ⟨.ofDigits ['3'] (by decide) (forall_mem_of_all (by decide)), rfl⟩)
    (.binary ⟨.mul, '×', by decide⟩ (.binary ⟨.add, '+', by decide⟩ two one)
      (.percent ⟨.ofDigits ['5', '0'] (by decide) (forall_mem_of_all (by decide)), rfl⟩))

theorem evaluate_sample : String.ofList sample.text = "3!–(2+1)×50%" ∧
    evaluate .degrees (String.ofList sample.text) ≠ .error (.grammar .tooDeep) ∧
    evaluate .degrees (String.ofList sample.text) = .ok (some 4.5) := by
  have htext : String.ofList sample.text = "3!–(2+1)×50%" := by decide +kernel
  have h : evaluate .degrees (String.ofList sample.text) ≠ .error (.grammar .tooDeep) := by
    decide +kernel
  have hv : (do return some (← settle (← sample.meaning .degrees))) = Except.ok (some 4.5) := by
    decide +kernel
  exact ⟨htext, h, (evaluate_text .degrees sample h).trans hv⟩

end Formula

end DeskCalculator
