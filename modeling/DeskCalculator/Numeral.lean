import DeskCalculator.Binary64

/-!
# Written numbers

Digits with at most one point, and then an exponent. A point may stand before or after all digits;
an exponent needs at least one digit, and without one its letter belongs to what follows.
-/

namespace DeskCalculator

structure WrittenExponent where
  letter : Char
  sign : Option Char
  digits : List Char
deriving DecidableEq, Repr

namespace WrittenExponent

def text (e : WrittenExponent) : List Char :=
  e.letter :: e.sign.toList ++ e.digits

def value (e : WrittenExponent) : Int :=
  let n : Int := Nat.ofDigitChars 10 e.digits 0
  if e.sign = some '-' then -n else n

def sign? : List Char → Option Char
  | '+' :: _ => some '+'
  | '-' :: _ => some '-'
  | _ => none

def read? : List Char → Option WrittenExponent
  | [] => none
  | c :: rest =>
    let sign := sign? rest
    let digits := (rest.drop sign.toList.length).takeWhile Char.isDigit
    if (c == 'e' || c == 'E') && !digits.isEmpty then some ⟨c, sign, digits⟩ else none

end WrittenExponent

structure Numeral where
  whole : List Char
  point : Bool
  fraction : List Char
  exponent : Option WrittenExponent
deriving DecidableEq, Repr

namespace Numeral

def text (n : Numeral) : List Char :=
  n.whole ++ (if n.point then '.' :: n.fraction else []) ++ (n.exponent.map WrittenExponent.text).getD []

/-- The longest written number at the start of a text. -/
def read (text : List Char) : Numeral :=
  let whole := text.takeWhile Char.isDigit
  match text.dropWhile Char.isDigit with
  | '.' :: rest =>
    ⟨whole, true, rest.takeWhile Char.isDigit, WrittenExponent.read? (rest.dropWhile Char.isDigit)⟩
  | rest => ⟨whole, false, [], WrittenExponent.read? rest⟩

def decimal (n : Numeral) : Decimal :=
  let exponent := (n.exponent.map WrittenExponent.value).getD 0
  ⟨Nat.ofDigitChars 10 (n.whole ++ n.fraction) 0, exponent - n.fraction.length⟩

/-- The nearest double; there is none without a digit around the point. -/
def value? (n : Numeral) : Option Float :=
  if n.whole.isEmpty && n.fraction.isEmpty then none
  else some (Binary64.ofBits false (Binary64.bitsOfDecimal n.decimal))

end Numeral

end DeskCalculator
