import DeskCalculator.Token

/-!
# Postfix order

The tokens of a text are put in the order in which a stack machine runs them: each operator after
its operands, each function after its argument, and no parentheses. From the loosest to the
tightest, the operators are `+` and `-`, `*` and `/`, the sign, and `**`, which alone groups from
the right. A plus sign before a value does nothing.
-/

namespace DeskCalculator.PostfixOrder

/-- Parentheses nest no deeper. -/
def maxDepth : Nat := 1000

/-! ## Operators that wait for their operands -/

inductive Pending where
  | opening
  | call (f : NamedFunction)
  | negation
  | op (o : Op)
  | power
deriving DecidableEq

namespace Pending

def token : Pending → Token
  | opening => .opening
  | call f => .name f.name
  | negation => .negation
  | op o => .op o
  | power => .power

end Pending

/-- How tightly an operator of a chain binds. -/
def strength : Op → Nat
  | .add | .sub => 1
  | .mul | .div => 2

namespace Pending

/-- The pending operator takes its operand before a following `o`. -/
def goesBefore (o : Op) : Pending → Bool
  | opening | call _ => false
  | negation | power => true
  | op o' => strength o ≤ strength o'

end Pending

/-! ## One token -/

/-- What was read so far: the tokens put in order, the last one first; the pending operators, the
nearest first; whether a value was just completed; and how many parentheses are open. -/
structure State where
  output : List Token
  pending : List Pending
  afterValue : Bool
  depth : Nat
deriving DecidableEq

namespace State

def initial : State := ⟨[], [], false, 0⟩

/-- Moves the nearest pending operators that fulfil `p` to the output. -/
def release (s : State) (p : Pending → Bool) : State :=
  { s with
    output := ((s.pending.takeWhile p).map Pending.token).reverse ++ s.output
    pending := s.pending.dropWhile p }

def value (s : State) (t : Token) : Except GrammarFault State :=
  if s.afterValue then .error .adjacentValues
  else .ok { s with output := t :: s.output, afterValue := true }

/-- A name is a function before a parenthesis, or a constant. -/
def name (s : State) (n : String) (next : Option Token) : Except GrammarFault State :=
  if s.afterValue then .error .adjacentValues
  else match NamedFunction.ofName? n with
    | some f =>
      if next = some .opening then .ok { s with pending := .call f :: s.pending }
      else .error (.missingParenthesis n)
    | none =>
      if (Constant.ofName? n).isSome then s.value (.name n) else .error (.unknownName n)

def openParenthesis (s : State) : Except GrammarFault State :=
  if s.afterValue then .error .parenthesisAfterValue
  else if maxDepth < s.depth + 1 then .error .tooDeep
  else .ok { s with pending := .opening :: s.pending, depth := s.depth + 1 }

/-- Moves a function whose argument is complete to the output. -/
def completeCall (s : State) : State :=
  match s.pending with
  | .call f :: rest => { s with output := .name f.name :: s.output, pending := rest }
  | _ => s

def closeParenthesis (s : State) : Except GrammarFault State :=
  if !s.afterValue then .error .missingOperandBeforeClosing
  else
    let s := s.release (· != .opening)
    match s.pending with
    | [] => .error .unmatchedClosing
    | _ :: rest => .ok { s with pending := rest, depth := s.depth - 1 }.completeCall

def binary (s : State) (p : Pending) (symbol : String) (before : Pending → Bool) :
    Except GrammarFault State :=
  if !s.afterValue then .error (.missingLeftOperand symbol)
  else
    let s := s.release before
    .ok { s with pending := p :: s.pending, afterValue := false }

/-- Reads one token, knowing the next. -/
def step (s : State) (t : Token) (next : Option Token) : Except GrammarFault State :=
  match t with
  | .number _ => s.value t
  | .name n => s.name n next
  | .opening => s.openParenthesis
  | .closing => s.closeParenthesis
  | .op o =>
    match o, s.afterValue with
    | .add, false => .ok s
    | .sub, false => .ok { s with pending := .negation :: s.pending }
    | _, _ => s.binary (.op o) o.symbol (Pending.goesBefore o)
  | .power => s.binary .power "**" fun _ => false
  | .negation => .error .negationInInput

/-! ## All tokens -/

def run : State → List Token → Except GrammarFault State
  | s, [] => .ok s
  | s, t :: rest => do run (← s.step t rest.head?) rest

/-- The order of a complete text. -/
def finish (s : State) : Except GrammarFault (List Token) :=
  if !s.afterValue then .error .incompleteExpression
  else if s.pending.contains .opening then .error .unclosedParenthesis
  else .ok (s.release fun _ => true).output.reverse

end State

def ofTokens (tokens : List Token) : Except GrammarFault (List Token) :=
  if tokens.isEmpty then .error .emptyExpression
  else do (← State.initial.run tokens).finish

end DeskCalculator.PostfixOrder
