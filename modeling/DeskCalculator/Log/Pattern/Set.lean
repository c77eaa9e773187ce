import DeskCalculator.Log.Pattern.Escape

/-!
# Sets of characters in patterns

A set stands in brackets. Its members are characters, ranges, classes and further sets; it may be
the complement of its members, and two lists of members may be joined by `&&`, `--` or `~~`. Where
characters are those of ASCII, no set may hold others.
-/

namespace DeskCalculator.Log.Pattern

/-! ## Parts of a set -/

/-- How deep a part nests, and whether it holds all bytes beyond ASCII; the latter means nothing
where characters are those of Unicode. -/
structure SetPart where
  height : Nat
  beyondAscii : Bool
deriving DecidableEq, Repr

inductive SetOperator where
  | intersection
  | difference
  | symmetricDifference
deriving DecidableEq, Repr

namespace SetPart

def leaf : SetPart := ⟨0, false⟩

def union : List SetPart → SetPart
  | [] => leaf
  | [part] => part
  | parts => ⟨(parts.map height).foldl max 0 + 1, parts.any beyondAscii⟩

/-- Joins a part to what stands before its operator. -/
def join : Option (SetPart × SetOperator) → SetPart → SetPart
  | none, part => part
  | some (left, op), right =>
    let beyond := match op with
      | .intersection => left.beyondAscii && right.beyondAscii
      | .difference => left.beyondAscii && !right.beyondAscii
      | .symmetricDifference => left.beyondAscii != right.beyondAscii
    ⟨max left.height right.height + 1, beyond⟩

def close? (options : Options) (negated : Bool) (content : SetPart) : Option SetPart :=
  let part := ⟨content.height + 1, content.beyondAscii != negated⟩
  if options.unicode || !part.beyondAscii then some part else none

end SetPart

/-! ## Members -/

def codePoint? (options : Options) (e : Escape) : Option Nat :=
  let limited := fun n => if options.unicode || n < 128 then some n else none
  match e with
  | .character c => limited c.toNat
  | .code n => limited n
  | _ => none

/-- A member that is no range. -/
def member? (options : Options) : Escape → Option SetPart
  | .shorthand negated => if options.unicode || !negated then some .leaf else none
  | .category => if options.unicode then some .leaf else none
  | e => (codePoint? options e).map fun _ => .leaf

def setCharacter? (options : Options) : List Char → Option (Escape × List Char)
  | [] => none
  | '\\' :: rest => escape? options rest
  | c :: rest => some (.character c, rest)

/-- A member or a range of two. Before a bracket or another hyphen, a hyphen makes no range. -/
def range? (options : Options) (text : List Char) : Option (SetPart × List Char) := do
  let (first, rest) ← setCharacter? options text
  let single := (member? options first).map fun part => (part, rest)
  match skip options rest with
  | [] => none
  | '-' :: behind =>
    match skip options behind with
    | [] => none
    | ']' :: _ | '-' :: _ => single
    | behind =>
      let (last, rest) ← setCharacter? options behind
      if (← codePoint? options first) ≤ (← codePoint? options last) then return (.leaf, rest)
      none
  | _ => single

def classNames : List String :=
  ["alnum", "alpha", "ascii", "blank", "cntrl", "digit", "graph", "lower", "print", "punct", "space",
    "upper", "word", "xdigit"]

/-- A class by its name, such as `[:alpha:]`, behind its bracket. -/
def namedClass? : List Char → Option (SetPart × List Char)
  | ':' :: rest =>
    let (negated, rest) := match rest with
      | '^' :: rest => (true, rest)
      | rest => (false, rest)
    match rest.dropWhile (· != ':') with
    | ':' :: ']' :: behind =>
      if classNames.contains (String.ofList (rest.takeWhile (· != ':'))) then some (⟨0, negated⟩, behind)
      else none
    | _ => none
  | _ => none

/-! ## Sets -/

/-- The count of hyphens at the start of a text, and what follows. -/
def takeHyphens (options : Options) : (fuel : Nat) → List Char → Nat × List Char
  | fuel + 1, '-' :: rest =>
    let (count, rest) := takeHyphens options fuel (skip options rest)
    (count + 1, rest)
  | _, text => (0, text)

/-- The start of a set behind its bracket: whether it is a complement, its first members, and what
follows. Hyphens, or else a closing bracket, stand for themselves here. -/
def setStart (options : Options) (text : List Char) : Bool × List SetPart × List Char :=
  let text := skip options text
  let (negated, text) := match text with
    | '^' :: rest => (true, skip options rest)
    | text => (false, text)
  match takeHyphens options text.length text with
  | (0, ']' :: rest) => (negated, [.leaf], rest)
  | (count, rest) => (negated, List.replicate count .leaf, rest)

/-- Reads the members of a set up to its closing bracket; `left` stands before the last operator. -/
def setContent? (options : Options) :
    (fuel : Nat) → (left : Option (SetPart × SetOperator)) → (members : List SetPart) → List Char →
      Option (SetPart × List Char)
  | 0, _, _, _ => none
  | fuel + 1, left, members, text =>
    let joined := SetPart.join left (.union members)
    match skip options text with
    | [] => none
    | ']' :: rest => some (joined, rest)
    | '&' :: '&' :: rest => setContent? options fuel (some (joined, .intersection)) [] rest
    | '-' :: '-' :: rest => setContent? options fuel (some (joined, .difference)) [] rest
    | '~' :: '~' :: rest => setContent? options fuel (some (joined, .symmetricDifference)) [] rest
    | '[' :: rest =>
      match namedClass? rest with
      | some (part, rest) => setContent? options fuel left (part :: members) rest
      | none => do
        let (negated, first, rest) := setStart options rest
        let (content, rest) ← setContent? options fuel none first rest
        setContent? options fuel left ((← content.close? options negated) :: members) rest
    | text => do
      let (part, rest) ← range? options text
      setContent? options fuel left (part :: members) rest

def set? (options : Options) (text : List Char) : Option (SetPart × List Char) := do
  let (negated, first, rest) := setStart options text
  let (content, rest) ← setContent? options (rest.length + 1) none first rest
  return (← content.close? options negated, rest)

end DeskCalculator.Log.Pattern
