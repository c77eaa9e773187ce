import DeskCalculator.Operation

/-!
# Tokens

The words of a canonical text, and the text of a list of them.
-/

namespace DeskCalculator

inductive Token where
  | number (x : Float)
  | name (n : String)
  | op (o : Op)
  | power
  /-- The sign that negates the value after it; it is an operator of postfix order only. -/
  | negation
  | opening
  | closing
deriving DecidableEq

namespace Token

def text : Token → String
  | number x => numberText x
  | name n => n
  | op o => o.symbol
  | power => "**"
  | negation => "neg"
  | opening => "("
  | closing => ")"

def listText (tokens : List Token) : String :=
  " ".intercalate (tokens.map text)

end Token

end DeskCalculator
