import DeskCalculator.Binary64
import DeskCalculator.Toml.Item
import DeskCalculator.Toml.Lexical

/-!
# Numbers, dates and truth values of TOML

A scalar that is no string is a run of letters, digits and a few signs, which as a whole must be of
one of the kinds.
-/

namespace DeskCalculator.Toml

open Character

def isScalarChar (c : Char) : Bool :=
  c.isAlphanum || c == '_' || c == '+' || c == '-' || c == '.' || c == ':'

/-! ## Integers -/

/-- Drops the underscores of a run of digits; each must stand between two digits. -/
def ungroup? (isDigit : Char → Bool) : List Char → Option (List Char)
  | [] => none
  | [c] => if isDigit c then some [c] else none
  | c :: '_' :: rest => if isDigit c then (ungroup? isDigit rest).map (c :: ·) else none
  | c :: rest => if isDigit c then (ungroup? isDigit rest).map (c :: ·) else none

def isOctalDigit (c : Char) : Bool := '0' ≤ c && c ≤ '7'

def isBinaryDigit (c : Char) : Bool := c == '0' || c == '1'

/-- The digits of a decimal number without a sign; a zero leads only alone. -/
def decimalDigits? (text : List Char) : Option (List Char) := do
  let digits ← ungroup? Char.isDigit text
  match digits with
  | '0' :: _ :: _ => none
  | _ => return digits

/-- The sign of a number, true for minus, and what follows. -/
def takeSign : List Char → Bool × List Char
  | '+' :: rest => (false, rest)
  | '-' :: rest => (true, rest)
  | text => (false, text)

def ofDigits (base : Nat) (digits : List Char) : Nat :=
  digits.foldl (fun n c => base * n + (hexDigit? c).getD 0) 0

/-- No integer takes more than 128 bits; a negative one has 127 beside its sign. -/
def integerInRange? (n : Int) : Option Item :=
  let limit : Nat := Nat.pow 2 128
  if -(limit / 2 : Nat) ≤ n ∧ n < limit then some (.integer n) else none

def integer? (text : List Char) : Option Item :=
  match text with
  | '0' :: 'x' :: rest => (ungroup? isHexDigit rest).bind fun d => integerInRange? (ofDigits 16 d)
  | '0' :: 'o' :: rest => (ungroup? isOctalDigit rest).bind fun d => integerInRange? (ofDigits 8 d)
  | '0' :: 'b' :: rest => (ungroup? isBinaryDigit rest).bind fun d => integerInRange? (ofDigits 2 d)
  | _ =>
    let (negative, rest) := takeSign text
    (decimalDigits? rest).bind fun d =>
      let n : Int := ofDigits 10 d
      integerInRange? (if negative then -n else n)

/-! ## Floats -/

def fraction? : List Char → Option (List Char × List Char)
  | '.' :: rest =>
    let digit := fun c : Char => c.isDigit || c == '_'
    (ungroup? Char.isDigit (rest.takeWhile digit)).map fun digits => (digits, rest.dropWhile digit)
  | text => some ([], text)

def exponent? : List Char → Option Int
  | [] => some 0
  | c :: rest =>
    if c == 'e' || c == 'E' then
      let (negative, digits) := takeSign rest
      (ungroup? Char.isDigit digits).map fun digits =>
        let n : Int := ofDigits 10 digits
        if negative then -n else n
    else none

/-- A number beyond the largest double is refused. -/
def float? (text : List Char) : Option Item := do
  let (negative, unsigned) := takeSign text
  if unsigned = ['i', 'n', 'f'] then return .float (Binary64.ofBits negative Binary64.infinity)
  if unsigned = ['n', 'a', 'n'] then return .float (Float.ofBits 0x7FF8000000000000)
  let digit := fun c : Char => c.isDigit || c == '_'
  let whole ← decimalDigits? (unsigned.takeWhile digit)
  let (fraction, rest) ← fraction? (unsigned.dropWhile digit)
  let exponent ← exponent? rest
  let bits := Binary64.bitsOfDecimal ⟨ofDigits 10 (whole ++ fraction), exponent - fraction.length⟩
  if bits < Binary64.infinity then return .float (Binary64.ofBits negative bits)
  none

/-! ## Dates and times -/

def number? (digits : List Char) : Option Nat :=
  if !digits.isEmpty && digits.all Char.isDigit then some (ofDigits 10 digits) else none

def isLeapYear (year : Nat) : Bool :=
  year % 4 == 0 && (year % 100 != 0 || year % 400 == 0)

def daysInMonth (year month : Nat) : Nat :=
  if month == 2 then if isLeapYear year then 29 else 28
  else if month == 4 || month == 6 || month == 9 || month == 11 then 30
  else 31

/-- What follows a date `YYYY-MM-DD`. -/
def afterDate? : List Char → Option (List Char)
  | y1 :: y2 :: y3 :: y4 :: '-' :: m1 :: m2 :: '-' :: d1 :: d2 :: rest => do
    let year ← number? [y1, y2, y3, y4]
    let month ← number? [m1, m2]
    let day ← number? [d1, d2]
    if 1 ≤ month ∧ month ≤ 12 ∧ 1 ≤ day ∧ day ≤ daysInMonth year month then return rest
    none
  | _ => none

/-- What follows the seconds of a time and their fraction; both may be missing. -/
def afterSeconds? : List Char → Option (List Char)
  | ':' :: s1 :: s2 :: rest => do
    let second ← number? [s1, s2]
    if 60 < second then none
    match rest with
    | '.' :: rest => if rest.head?.any Char.isDigit then return rest.dropWhile Char.isDigit else none
    | rest => return rest
  | ':' :: _ => none
  | text => some text

/-- What follows a time `HH:MM` with or without seconds. -/
def afterTime? : List Char → Option (List Char)
  | h1 :: h2 :: ':' :: m1 :: m2 :: rest => do
    let hour ← number? [h1, h2]
    let minute ← number? [m1, m2]
    if hour ≤ 23 ∧ minute ≤ 59 then afterSeconds? rest else none
  | _ => none

/-- The distance to universal time is `Z` or a signed `HH:MM`, or is left out. -/
def isOffset : List Char → Bool
  | [] => true
  | ['Z'] | ['z'] => true
  | [sign, h1, h2, ':', m1, m2] =>
    (sign == '+' || sign == '-') && (number? [h1, h2]).any (· ≤ 23) && (number? [m1, m2]).any (· ≤ 59)
  | _ => false

/-- A date, a time, or both with a letter or a blank between them. -/
def isDateTime (text : List Char) : Bool :=
  match afterDate? text with
  | some [] => true
  | some (c :: rest) => (c == 'T' || c == 't' || c == ' ') && (afterTime? rest).any isOffset
  | none => afterTime? text == some []

/-! ## Scalars -/

def scalar? (text : List Char) : Option Item :=
  if text = "true".toList then some (.boolean true)
  else if text = "false".toList then some (.boolean false)
  else if isDateTime text then some (.dateTime (String.ofList text))
  else (integer? text).or (float? text)

/-- The run of characters at the start of a text; a blank belongs to it between a date and the
digits of a time. -/
def takeScalar (text : List Char) : List Char × List Char :=
  let run := text.takeWhile isScalarChar
  match afterDate? run, text.dropWhile isScalarChar with
  | some [], ' ' :: c :: rest =>
    if c.isDigit then
      (run ++ ' ' :: (c :: rest).takeWhile isScalarChar, (c :: rest).dropWhile isScalarChar)
    else (run, ' ' :: c :: rest)
  | _, rest => (run, rest)

end DeskCalculator.Toml
