import DeskCalculator.Character.HexDigit
import DeskCalculator.Character.WhiteSpace

/-!
# Escapes in patterns

A pattern stands between the braces of a field, so it holds no closing brace, and an escape that
opens one of its own is never complete.
-/

namespace DeskCalculator.Log.Pattern

open Character

/-! ## Options -/

/-- How a part of a pattern is read. -/
structure Options where
  /-- Classes of characters are those of Unicode, otherwise those of ASCII. -/
  unicode : Bool
  /-- Capital and small letters mean the same. -/
  anyCase : Bool
  /-- White space does not belong to the pattern, nor does a comment from `#` to the end of its line. -/
  spaced : Bool
deriving DecidableEq, Repr

def Options.standard : Options := ⟨true, false, false⟩

def skipSpace : (inComment : Bool) → List Char → List Char
  | _, [] => []
  | true, c :: rest => skipSpace (c != '\n') rest
  | false, c :: rest =>
    if c == '#' then skipSpace true rest
    else if isWhiteSpace c then skipSpace false rest
    else c :: rest

def skip (options : Options) (text : List Char) : List Char :=
  if options.spaced then skipSpace false text else text

/-! ## Escapes -/

inductive Escape where
  | character (c : Char)
  /-- Two hexadecimal digits, which write a character of Unicode or a byte. -/
  | code (n : Nat)
  /-- The start or the end of the value. -/
  | edge
  /-- A place where a word starts or ends, or where none does. -/
  | wordEdge
  /-- Digits, white space or word characters, or all others. -/
  | shorthand (negated : Bool)
  /-- A general category of Unicode. -/
  | category
deriving DecidableEq, Repr

def hexDigits? (options : Options) : (count : Nat) → List Char → Option (List Char × List Char)
  | 0, text => some ([], text)
  | count + 1, text =>
    match skip options text with
    | [] => none
    | c :: rest =>
      if isHexDigit c then (hexDigits? options count rest).map fun (digits, rest) => (c :: digits, rest)
      else none

def hexCharacter? (options : Options) (count : Nat) (text : List Char) : Option (Char × List Char) := do
  let (digits, rest) ← hexDigits? options count text
  return (← ofHexDigits? digits, rest)

def categories : List Char := ['c', 'l', 'm', 'n', 'p', 's', 'z']

/-- Signs that stand for themselves behind a backslash. -/
def isEscapedSign (c : Char) : Bool :=
  c.toNat < 128 && !c.isAlphanum && c != '<' && c != '>'

def escape? (options : Options) : List Char → Option (Escape × List Char)
  | [] => none
  | c :: rest =>
    if isEscapedSign c then some (.character c, rest)
    else match c with
      | 'x' => (hexCharacter? options 2 rest).map fun (c, rest) => (.code c.toNat, rest)
      | 'u' => (hexCharacter? options 4 rest).map fun (c, rest) => (.character c, rest)
      | 'U' => (hexCharacter? options 8 rest).map fun (c, rest) => (.character c, rest)
      | 'p' | 'P' =>
        match skip options rest with
        | name :: rest => if categories.contains name.toLower then some (.category, rest) else none
        | [] => none
      | 'd' | 's' | 'w' => some (.shorthand false, rest)
      | 'D' | 'S' | 'W' => some (.shorthand true, rest)
      | 'A' | 'z' => some (.edge, rest)
      | 'b' | 'B' | '<' | '>' => some (.wordEdge, rest)
      | 'a' => some (.character '\x07', rest)
      | 'f' => some (.character '\x0c', rest)
      | 'n' => some (.character '\n', rest)
      | 'r' => some (.character '\x0d', rest)
      | 't' => some (.character '\t', rest)
      | 'v' => some (.character '\x0b', rest)
      | _ => none

end DeskCalculator.Log.Pattern
