import DeskCalculator.Character.HexDigit

/-!
# Blanks, strings and keys of TOML

Every reader takes a text and gives what it found with the rest of the text, or nothing if the text
is not well formed.
-/

namespace DeskCalculator.Toml

open Character

/-! ## Blanks and comments -/

def isBlank (c : Char) : Bool := c == ' ' || c == '\t'

def skipBlanks (text : List Char) : List Char := text.dropWhile isBlank

/-- No control characters but the tabulation may stand in a comment or a string. -/
def isPrintable (c : Char) : Bool :=
  c == '\t' || (0x20 ≤ c.toNat && c.toNat != 0x7F)

/-- Skips blanks, ends of line and comments. -/
def skipSpace : (inComment : Bool) → List Char → Option (List Char)
  | _, [] => some []
  | _, '\n' :: rest => skipSpace false rest
  | _, '\x0d' :: '\n' :: rest => skipSpace false rest
  | true, c :: rest => if isPrintable c then skipSpace true rest else none
  | false, '#' :: rest => skipSpace true rest
  | false, c :: rest => if isBlank c then skipSpace false rest else some (c :: rest)

def skipComment : List Char → Option (List Char)
  | [] => some []
  | '\n' :: rest => some rest
  | '\x0d' :: '\n' :: rest => some rest
  | c :: rest => if isPrintable c then skipComment rest else none

/-- Skips what may follow on a line: blanks, a comment, and the end of the line or of the text. -/
def skipLineEnd (text : List Char) : Option (List Char) :=
  match skipBlanks text with
  | [] => some []
  | '\n' :: rest => some rest
  | '\x0d' :: '\n' :: rest => some rest
  | '#' :: rest => skipComment rest
  | _ => none

/-! ## Escapes -/

/-- The character behind a backslash that stands for one of its own. -/
def escape? : Char → Option Char
  | 'b' => some '\x08'
  | 't' => some '\t'
  | 'n' => some '\n'
  | 'f' => some '\x0c'
  | 'r' => some '\x0d'
  | 'e' => some '\x1b'
  | '"' => some '"'
  | '\\' => some '\\'
  | _ => none

/-! ## Strings -/

def consString (c : Char) : Option (List Char × List Char) → Option (List Char × List Char)
  | some (s, rest) => some (c :: s, rest)
  | none => none

def basicString : List Char → Option (List Char × List Char)
  | [] => none
  | '"' :: rest => some ([], rest)
  | '\\' :: 'x' :: a :: b :: rest =>
    (ofHexDigits? [a, b]).bind fun c => consString c (basicString rest)
  | '\\' :: 'u' :: a :: b :: c :: d :: rest =>
    (ofHexDigits? [a, b, c, d]).bind fun c => consString c (basicString rest)
  | '\\' :: 'U' :: a :: b :: c :: d :: e :: f :: g :: h :: rest =>
    (ofHexDigits? [a, b, c, d, e, f, g, h]).bind fun c => consString c (basicString rest)
  | '\\' :: c :: rest => (escape? c).bind fun c => consString c (basicString rest)
  | c :: rest => if isPrintable c && c != '\\' then consString c (basicString rest) else none

/-- How a string of several lines goes on behind a backslash at the end of a line. -/
inductive Continuation where
  | none
  | beforeLineEnd
  | afterLineEnd
deriving DecidableEq, Repr

/-- The end of a line of such a string. -/
def lineBreak : Continuation → Option (List Char × List Char) → Option (List Char × List Char)
  | .none, r => consString '\n' r
  | _, r => r

/-- A string of several lines, behind its opening quotes. One or two quotes may stand before the
closing ones. -/
def longString : Continuation → List Char → Option (List Char × List Char)
  | _, [] => Option.none
  | k, '\n' :: rest => lineBreak k (longString (if k = .none then .none else .afterLineEnd) rest)
  | k, '\x0d' :: '\n' :: rest =>
    lineBreak k (longString (if k = .none then .none else .afterLineEnd) rest)
  | .beforeLineEnd, c :: rest => if isBlank c then longString .beforeLineEnd rest else Option.none
  | k, c :: rest =>
    if k = .afterLineEnd && isBlank c then longString k rest
    else match c, rest with
      | '"', '"' :: '"' :: '"' :: '"' :: rest => some (['"', '"'], rest)
      | '"', '"' :: '"' :: '"' :: rest => some (['"'], rest)
      | '"', '"' :: '"' :: rest => some ([], rest)
      | '\\', 'x' :: a :: b :: rest =>
        (ofHexDigits? [a, b]).bind fun c => consString c (longString .none rest)
      | '\\', 'u' :: a :: b :: c :: d :: rest =>
        (ofHexDigits? [a, b, c, d]).bind fun c => consString c (longString .none rest)
      | '\\', 'U' :: a :: b :: c :: d :: e :: f :: g :: h :: rest =>
        (ofHexDigits? [a, b, c, d, e, f, g, h]).bind fun c => consString c (longString .none rest)
      | '\\', ' ' :: rest => longString .beforeLineEnd rest
      | '\\', '\t' :: rest => longString .beforeLineEnd rest
      | '\\', '\n' :: rest => longString .afterLineEnd rest
      | '\\', '\x0d' :: '\n' :: rest => longString .afterLineEnd rest
      | '\\', c :: rest => (escape? c).bind fun c => consString c (longString .none rest)
      | c, rest =>
        if isPrintable c && c != '\\' then consString c (longString .none rest) else Option.none

def literalString : List Char → Option (List Char × List Char)
  | [] => none
  | '\'' :: rest => some ([], rest)
  | c :: rest => if isPrintable c then consString c (literalString rest) else none

def longLiteralString : List Char → Option (List Char × List Char)
  | [] => none
  | '\'' :: '\'' :: '\'' :: '\'' :: '\'' :: rest => some (['\'', '\''], rest)
  | '\'' :: '\'' :: '\'' :: '\'' :: rest => some (['\''], rest)
  | '\'' :: '\'' :: '\'' :: rest => some ([], rest)
  | '\n' :: rest => consString '\n' (longLiteralString rest)
  | '\x0d' :: '\n' :: rest => consString '\n' (longLiteralString rest)
  | c :: rest => if isPrintable c then consString c (longLiteralString rest) else none

/-- The end of line directly behind the opening quotes does not belong to the string. -/
def dropFirstLineEnd : List Char → List Char
  | '\n' :: rest => rest
  | '\x0d' :: '\n' :: rest => rest
  | text => text

def string? : List Char → Option (List Char × List Char)
  | '"' :: '"' :: '"' :: rest => longString .none (dropFirstLineEnd rest)
  | '"' :: rest => basicString rest
  | '\'' :: '\'' :: '\'' :: rest => longLiteralString (dropFirstLineEnd rest)
  | '\'' :: rest => literalString rest
  | _ => none

/-! ## Keys -/

def isBareKeyChar (c : Char) : Bool :=
  c.isAlphanum || c == '_' || c == '-'

def simpleKey? : List Char → Option (String × List Char)
  | '"' :: rest => (basicString rest).map fun (s, rest) => (String.ofList s, rest)
  | '\'' :: rest => (literalString rest).map fun (s, rest) => (String.ofList s, rest)
  | text =>
    let key := text.takeWhile isBareKeyChar
    if key.isEmpty then none else some (String.ofList key, text.dropWhile isBareKeyChar)

/-- Arrays and inline tables nest no deeper, and no key has more parts. -/
def maxDepth : Nat := 80

/-- A key with all its parts, of which there are at most `parts`; blanks may stand around the
points. -/
def key? : (parts : Nat) → List Char → Option (List String × List Char)
  | 0, _ => none
  | parts + 1, text => do
    let (first, rest) ← simpleKey? (skipBlanks text)
    match skipBlanks rest with
    | '.' :: rest =>
      let (others, rest) ← key? parts rest
      return (first :: others, rest)
    | rest => return ([first], rest)

end DeskCalculator.Toml
