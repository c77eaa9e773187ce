import DeskCalculator.AngleMode
import DeskCalculator.Canonical.Named

/-!
# Trigonometric calls

In degrees, `sin`, `cos` and `tan` get their argument converted, and the inverse functions their
result. The argument ends at the parenthesis that closes the call; closings that are still to come
are kept on a stack, the nearest on top. A call that is never closed only gets its full name.
-/

namespace DeskCalculator.Canonical

def trigNames : List String :=
  ["asin", "acos", "atan", "sin", "cos", "tan"]

/-! ## What is written around an argument -/

structure Wrapping where
  before : List Char
  after : List Char
deriving DecidableEq, Repr

/-- The full name of a trigonometric function with its parenthesis. -/
def openTrig (name : List Char) : List Char :=
  "math.".toList ++ name ++ ['(']

/-- Inverse functions are those whose name starts with `a`. -/
def wrapping (mode : AngleMode) (name : List Char) : Wrapping :=
  match mode, name.head? == some 'a' with
  | .radians, _ => ⟨openTrig name, ")".toList⟩
  | .degrees, false => ⟨openTrig name ++ ['('], ")*math.pi/180)".toList⟩
  | .degrees, true => ⟨'(' :: openTrig name, ")*180/math.pi)".toList⟩

/-! ## Where a call closes -/

/-- How many characters stand before the parenthesis that closes the text, with `level` inner ones
open. -/
def closingOffset? : (level : Nat) → List Char → Option Nat
  | _, [] => none
  | level, c :: rest =>
    if c == '(' then (closingOffset? (level + 1) rest).map (· + 1)
    else if c == ')' then
      match level with
      | 0 => some 0
      | level + 1 => (closingOffset? level rest).map (· + 1)
    else (closingOffset? level rest).map (· + 1)

/-! ## One turn -/

/-- A closing parenthesis that lies ahead and what is written in its place. -/
structure Closing where
  position : Nat
  written : List Char
deriving DecidableEq, Repr

/-- What one turn writes, how many characters it takes, and the closings that then lie ahead. -/
structure Turn where
  written : List Char
  length : Nat
  pending : List Closing
deriving DecidableEq, Repr

/-- A turn at a place where nothing closes: a call, or one character that stays as it is. -/
def openingTurn (mode : AngleMode) (position : Nat) (previous : Option Char) (pending : List Closing)
    (c : Char) (rest : List Char) : Turn :=
  match calledName? trigNames previous (c :: rest) with
  | none => ⟨[c], 1, pending⟩
  | some name =>
    let length := name.length + 1
    match closingOffset? 0 ((c :: rest).drop length) with
    | none => ⟨openTrig name, length, pending⟩
    | some offset =>
      let w := wrapping mode name
      ⟨w.before, length, ⟨position + length + offset, w.after⟩ :: pending⟩

def turn (mode : AngleMode) (position : Nat) (previous : Option Char) (pending : List Closing)
    (c : Char) (rest : List Char) : Turn :=
  match pending with
  | [] => openingTurn mode position previous pending c rest
  | closing :: outer =>
    if closing.position = position then ⟨closing.written, 1, outer⟩
    else openingTurn mode position previous pending c rest

/-! ## The whole text -/

/-- Expands the calls of a text from a position on, after `skip` more characters that the last turn
took. -/
def expandTrigFrom (mode : AngleMode) :
    (skip position : Nat) → (previous : Option Char) → (pending : List Closing) → List Char → List Char
  | _, _, _, _, [] => []
  | skip + 1, position, _, pending, c :: rest =>
    expandTrigFrom mode skip (position + 1) (some c) pending rest
  | 0, position, previous, pending, c :: rest =>
    let t := turn mode position previous pending c rest
    t.written ++ expandTrigFrom mode (t.length - 1) (position + 1) (some c) t.pending rest

def expandTrig (mode : AngleMode) (text : List Char) : List Char :=
  expandTrigFrom mode 0 0 none [] text

end DeskCalculator.Canonical
