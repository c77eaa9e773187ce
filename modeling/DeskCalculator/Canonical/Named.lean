import DeskCalculator.Character.Word
import DeskCalculator.Rule

/-!
# Names that the user writes

Constants and functions have short names for the user and full ones in canonical text. A short name
is a whole word, and the name of a function stands directly before its parenthesis. Capital and
small letters mean the same, the long s `ſ` means `s`, and every letter pi means the constant; only
`e` is written small.
-/

namespace DeskCalculator.Canonical

open Character

/-! ## Words -/

def startsWord (previous : Option Char) : Bool :=
  !previous.any isWord

def endsWord (rest : List Char) : Bool :=
  !rest.head?.any isWord

/-- The character is the small letter in any of its forms. -/
def spells (letter c : Char) : Bool :=
  c.toLower == letter || (letter == 's' && c == 'ſ')

/-- The text starts with the name, in any letters, and an opening parenthesis. -/
def startsWithCall : (name : List Char) → (text : List Char) → Bool
  | [], c :: _ => c == '('
  | letter :: letters, c :: rest => spells letter c && startsWithCall letters rest
  | _, [] => false

/-- The name at the start of the text, as it is written there but in small letters of ASCII. -/
def calledName? (names : List String) (previous : Option Char) (text : List Char) : Option (List Char) :=
  if startsWord previous then
    (names.find? fun name => startsWithCall name.toList text).map fun name =>
      (text.take name.length).map Char.toLower
  else none

/-! ## Constants -/

def isPiLetter (c : Char) : Bool :=
  c == 'π' || c == 'Π' || c == 'ϖ'

def pi : Rule := fun previous text =>
  match text with
  | [] => none
  | c :: rest =>
    if isPiLetter c then some ⟨1, "math.pi".toList⟩
    else match rest with
      | [] => none
      | d :: rest =>
        if startsWord previous && spells 'p' c && spells 'i' d && endsWord rest then
          some ⟨2, "math.pi".toList⟩
        else none

def euler : Rule := fun previous text =>
  match text with
  | [] => none
  | c :: rest =>
    if startsWord previous && c == 'e' && endsWord rest then some ⟨1, "math.e".toList⟩ else none

/-! ## Functions -/

def functionNames : List String :=
  ["sqrt", "ln", "log", "exp", "abs", "floor", "ceil"]

/-- The full name of a function; `log` is the decimal logarithm. Any other spelling is `ceil`. -/
def fullName : String → String
  | "sqrt" => "math.sqrt"
  | "ln" => "math.ln"
  | "log" => "math.log10"
  | "exp" => "math.exp"
  | "abs" => "math.abs"
  | "floor" => "math.floor"
  | _ => "math.ceil"

def functionCall : Rule := fun previous text =>
  (calledName? functionNames previous text).map fun name =>
    ⟨name.length + 1, (fullName (String.ofList name)).toList ++ ['(']⟩

end DeskCalculator.Canonical
