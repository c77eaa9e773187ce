import DeskCalculator.Character.WhiteSpace
import DeskCalculator.Numeral
import DeskCalculator.Token

/-!
# Reading tokens

At each place the longest token is taken; white space may stand between two tokens.
-/

namespace DeskCalculator

open Character

/-! ## Names -/

def isNameStart (c : Char) : Bool :=
  c.isAlpha || c == '_'

def isNamePart (c : Char) : Bool :=
  c.isAlphanum || c == '_'

/-- The rest of a name: a point belongs to it if another part of the name follows. -/
def nameTail : List Char → List Char
  | [] => []
  | c :: rest =>
    if isNamePart c || (c == '.' && rest.head?.any isNameStart) then c :: nameTail rest else []

/-! ## Lexemes -/

structure Lexeme where
  token : Token
  length : Nat
deriving DecidableEq

namespace Lexeme

/-- The longest token at the start of the text `c :: rest`. -/
def read (c : Char) (rest : List Char) : Except GrammarFault Lexeme :=
  match c with
  | '(' => .ok ⟨.opening, 1⟩
  | ')' => .ok ⟨.closing, 1⟩
  | '+' => .ok ⟨.op .add, 1⟩
  | '-' => .ok ⟨.op .sub, 1⟩
  | '*' => if rest.head? = some '*' then .ok ⟨.power, 2⟩ else .ok ⟨.op .mul, 1⟩
  | '/' => .ok ⟨.op .div, 1⟩
  | _ =>
    if isNameStart c then
      let name := c :: nameTail rest
      .ok ⟨.name (String.ofList name), name.length⟩
    else if c.isDigit || c == '.' then
      let numeral := Numeral.read (c :: rest)
      match numeral.value? with
      | some x => .ok ⟨.number x, numeral.text.length⟩
      | none => .error (.invalidNumber (String.ofList numeral.text))
    else .error (.unexpectedCharacter c)

end Lexeme

/-! ## Texts -/

/-- The tokens of a text after `skip` more characters of the last token. -/
def tokensFrom : (skip : Nat) → List Char → Except GrammarFault (List Token)
  | _, [] => .ok []
  | skip + 1, _ :: rest => tokensFrom skip rest
  | 0, c :: rest =>
    if isWhiteSpace c then tokensFrom 0 rest
    else do
      let lexeme ← Lexeme.read c rest
      let tokens ← tokensFrom (lexeme.length - 1) rest
      return lexeme.token :: tokens

def tokens (text : List Char) : Except GrammarFault (List Token) :=
  tokensFrom 0 text

end DeskCalculator
