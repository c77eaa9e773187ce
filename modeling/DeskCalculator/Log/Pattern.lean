import DeskCalculator.Character.Alphanumeric
import DeskCalculator.Log.Pattern.Set
import DeskCalculator.Numeral

/-!
# Patterns for the values of fields

A directive may ask for the value of a field. What it asks for is a number or a pattern: characters,
classes, sets, groups, alternatives and repetitions. A filter is valid only if its patterns are;
with what they would agree is never asked, since every line stands outside of all spans.
-/

namespace DeskCalculator.Log.Pattern

open Character

/-! ## Groups -/

/-- The letters of options, and the sign that turns the following ones off. -/
def optionSigns : List Char := ['i', 'm', 's', 'U', 'u', 'R', 'x', '-']

/-- Reads the signs of options up to `:` or `)`, the last ones first. No sign stands twice, and the
sign that turns options off is not the last. -/
def optionChanges? : (before : List Char) → List Char → Option (List Char × List Char)
  | _, [] => none
  | before, c :: rest =>
    if c == ':' || c == ')' then if before.head? = some '-' then none else some (before, c :: rest)
    else if optionSigns.contains c && !before.contains c then optionChanges? (c :: before) rest
    else none

def Options.change (options : Options) (signs : List Char) : Options :=
  let on := signs.reverse.takeWhile (· != '-')
  let value := fun (sign : Char) (old : Bool) => if signs.contains sign then on.contains sign else old
  ⟨value 'u' options.unicode, value 'i' options.anyCase, value 'x' options.spaced⟩

def isGroupName : List Char → Bool
  | [] => false
  | c :: rest =>
    (c == '_' || isAlphabetic c) &&
      rest.all fun c => c == '_' || c == '.' || c == '[' || c == ']' || isAlphanumeric c

/-- What is still to be read, how, and the names of the groups so far. -/
structure State where
  options : Options
  names : List (List Char)
  rest : List Char
deriving DecidableEq, Repr

namespace State

/-- The name of a group, which no other group has. -/
def nameGroup? (s : State) (text : List Char) : Option State :=
  let name := text.takeWhile (· != '>')
  match text.dropWhile (· != '>') with
  | _ :: rest =>
    if isGroupName name && !s.names.contains name then some { s with names := name :: s.names, rest }
    else none
  | [] => none

/-- Reads behind an opening parenthesis: true if a group begins, false if options only change. -/
def openGroup? (s : State) (text : List Char) : Option (Bool × State) :=
  match skip s.options text with
  | '?' :: 'P' :: '<' :: rest => (s.nameGroup? rest).map (true, ·)
  | '?' :: '<' :: rest => (s.nameGroup? rest).map (true, ·)
  | '?' :: rest =>
    match optionChanges? [] rest with
    | some (signs, ':' :: rest) => some (true, { s with options := s.options.change signs, rest })
    | some (c :: signs, ')' :: rest) =>
      some (false, { s with options := s.options.change (c :: signs), rest })
    | _ => none
  | rest => some (true, { s with rest })

end State

/-! ## Whole patterns -/

structure Piece where
  height : Nat
  repeatable : Bool
deriving DecidableEq, Repr

/-- A list of two or more nests one level deeper than what it lists. -/
def listHeight : List Nat → Nat
  | [] => 0
  | [height] => height
  | heights => heights.foldl max 0 + 1

def character? (options : Options) : List Char → Option (List Char)
  | [] => none
  | '.' :: rest => if options.unicode then some rest else none
  | '\\' :: rest => do
    let (e, rest) ← escape? options rest
    let allowed := match e with
      | .character c => options.unicode || !options.anyCase || c.toNat < 128
      | .code n => options.unicode || n < 128
      | .edge => true
      | .wordEdge => !options.unicode
      | .shorthand negated => options.unicode || !negated
      | .category => options.unicode
    if allowed then return rest
    none
  | c :: rest => if options.unicode || !options.anyCase || c.toNat < 128 then some rest else none

/-- Reads up to a closing parenthesis or the end, with the heights of the alternatives and the
pieces of the present one before, the last ones first. Gives the height of all alternatives. -/
def alternatives? : (fuel : Nat) → State → (heights : List Nat) → List Piece → Option (Nat × State)
  | 0, _, _, _ => none
  | fuel + 1, s, heights, pieces =>
    let here := listHeight (pieces.map Piece.height)
    match skip s.options s.rest with
    | [] => some (listHeight (here :: heights), { s with rest := [] })
    | ')' :: rest => some (listHeight (here :: heights), { s with rest := ')' :: rest })
    | '|' :: rest => alternatives? fuel { s with rest } (here :: heights) []
    | '(' :: rest => do
      let (isGroup, inner) ← s.openGroup? rest
      if isGroup then
        let (height, last) ← alternatives? fuel inner [] []
        match last.rest with
        | ')' :: rest =>
          alternatives? fuel { last with options := s.options, rest } heights
            (⟨height + 1, true⟩ :: pieces)
        | _ => none
      else alternatives? fuel inner heights (⟨0, false⟩ :: pieces)
    | '[' :: rest => do
      let (set, rest) ← set? s.options rest
      alternatives? fuel { s with rest } heights (⟨set.height, true⟩ :: pieces)
    | '\x7b' :: _ => none
    | c :: rest =>
      if c == '*' || c == '+' || c == '?' then
        match pieces with
        | ⟨height, true⟩ :: others =>
          let rest := if rest.head? = some '?' then rest.drop 1 else rest
          alternatives? fuel { s with rest } heights (⟨height + 1, true⟩ :: others)
        | _ => none
      else do
        let rest ← character? s.options (c :: rest)
        alternatives? fuel { s with rest } heights (⟨0, true⟩ :: pieces)

/-- Patterns nest no deeper. -/
def maxHeight : Nat := 250

def isPattern (text : List Char) : Bool :=
  match alternatives? (text.length + 1) ⟨.standard, [], text⟩ [] [] with
  | some (height, s) => s.rest.isEmpty && height ≤ maxHeight
  | none => false

/-! ## Numbers -/

def isNumber (text : List Char) : Bool :=
  let numeral := Numeral.read text
  ["inf", "infinity", "nan"].contains (String.ofList (text.map Char.toLower)) ||
    (numeral.value?.isSome && numeral.text == text)

/-- What a directive may ask for. Numbers without a plus sign are patterns, too. -/
def isReadable (text : List Char) : Bool :=
  match text with
  | '+' :: rest => isNumber rest
  | text => isPattern text

end DeskCalculator.Log.Pattern
