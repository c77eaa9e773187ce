import DeskCalculator.Expr
import DeskCalculator.Token

/-!
# Expressions from postfix order

A stack holds the expressions built so far with their heights. What groups from one side is joined
to the chain or tower that is there already, and two signs cancel, so a long text without nesting
stays low.
-/

namespace DeskCalculator.Expr

/-- Expressions are no higher. -/
def maxHeight : Nat := 1000

structure Built where
  expr : Expr
  height : Nat

namespace Built

def leaf (e : Expr) : Built := ⟨e, 1⟩

def call (f : NamedFunction) (x : Built) : Built :=
  ⟨.call f x.expr, x.height + 1⟩

/-- A negated negation is the expression itself. -/
def negate (x : Built) : Built :=
  match x.expr with
  | .negation e => ⟨e, x.height - 1⟩
  | e => ⟨.negation e, x.height + 1⟩

/-- A tower grows at its base. -/
def raise (a b : Built) : Built :=
  match b.expr with
  | .tower members => ⟨.tower (a.expr :: members), max b.height (a.height + 1)⟩
  | e => ⟨.tower [a.expr, e], max a.height b.height + 1⟩

/-- A chain grows at its end. -/
def link (op : Op) (a b : Built) : Built :=
  match a.expr with
  | .chain head links => ⟨.chain head (links ++ [(op, b.expr)]), max a.height (b.height + 1)⟩
  | e => ⟨.chain e [(op, b.expr)], max a.height b.height + 1⟩

end Built

/-! ## One token -/

def pushBuilt (x : Built) (stack : List Built) : Except GrammarFault (List Built) :=
  if maxHeight < x.height then .error .tooDeep else .ok (x :: stack)

/-- Runs one token on the stack, whose top comes first. -/
def push (stack : List Built) : Token → Except GrammarFault (List Built)
  | .number x => pushBuilt (.leaf (.number x)) stack
  | .name n =>
    match Constant.ofName? n, NamedFunction.ofName? n, stack with
    | some c, _, _ => pushBuilt (.leaf (.constant c)) stack
    | none, some f, x :: rest => pushBuilt (x.call f) rest
    | none, some _, [] => .error (.missingArgument n)
    | none, none, _ => .error (.unknownName n)
  | .negation =>
    match stack with
    | x :: rest => pushBuilt x.negate rest
    | [] => .error .malformedExpression
  | .power =>
    match stack with
    | b :: a :: rest => pushBuilt (a.raise b) rest
    | _ => .error .malformedExpression
  | .op o =>
    match stack with
    | b :: a :: rest => pushBuilt (a.link o b) rest
    | _ => .error .malformedExpression
  | .opening | .closing => .error .parenthesisInPostfixOrder

/-! ## All tokens -/

def pushAll : List Built → List Token → Except GrammarFault (List Built)
  | stack, [] => .ok stack
  | stack, t :: rest => do pushAll (← push stack t) rest

def ofPostfixOrder (tokens : List Token) : Except GrammarFault Expr := do
  match ← pushAll [] tokens with
  | [x] => return x.expr
  | _ => throw .malformedExpression

end DeskCalculator.Expr
