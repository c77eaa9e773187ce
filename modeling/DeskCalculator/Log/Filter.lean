import DeskCalculator.Character.WhiteSpace
import DeskCalculator.Character.Alphanumeric
import DeskCalculator.Log.Line
import DeskCalculator.Log.Pattern

/-!
# Which lines of the log are shown

A filter is written as directives between commas. A directive names a target, a span with values in
brackets, or both, and after `=` the greatest verbosity shown there; a lone level holds for every
target. Of the directives that concern a line, the most specific one decides, and without one the
line is not shown.
-/

namespace DeskCalculator.Log

structure Directive where
  /-- Holds for targets that start with this text. -/
  target : Option String
  /-- Holds within the span of this name only. -/
  span : Option String
  /-- Holds for lines with a value under this name. -/
  field : Option String
  /-- The values themselves are asked for, too. -/
  asksForValues : Bool
  verbosity : Nat
deriving DecidableEq, Repr

namespace Directive

/-! ## Reading -/

def digits? (text : List Char) : Option Nat :=
  let digits := match text with
    | '+' :: rest => rest
    | text => text
  if !digits.isEmpty && digits.all Char.isDigit then some (Nat.ofDigitChars 10 digits 0) else none

def verbosityNamed? : String → Option Nat
  | "off" => some 0
  | "error" => some 1
  | "warn" => some 2
  | "info" => some 3
  | "debug" => some 4
  | "trace" => some 5
  | _ => none

/-- A verbosity is a number up to five or the name of a level in any letters. -/
def verbosity? (text : List Char) : Option Nat :=
  match digits? text with
  | some n => if n ≤ 5 then some n else none
  | none => verbosityNamed? (String.ofList (text.map Char.toLower))

/-- Nothing behind the sign stands for everything. -/
def verbosityBehindSign? (text : List Char) : Option Nat :=
  if text.isEmpty then some 5 else verbosity? text

/-- A level alone holds everywhere; any other word is a target of which everything is shown. -/
def ofWord (word : List Char) : Directive :=
  match verbosity? word with
  | some n => ⟨none, none, none, false, n⟩
  | none => ⟨some (String.ofList word), none, none, false, 5⟩

def trimBlanks (text : List Char) : List Char :=
  ((text.dropWhile Character.isWhiteSpace).reverse.dropWhile Character.isWhiteSpace).reverse

def cut (text : List Char) (first last : Nat) : List Char :=
  (text.take last).drop first

def find? (p : Char → Bool) (text : List Char) (first : Nat) : Option Nat :=
  ((text.drop first).findIdx? p).map (· + first)

def canStart (c : Char) : Bool :=
  c == '-' || c == ':' || c == '_' || Character.isAlphanumeric c

def readEnd? (source trimmed : List Char) (first : Nat) (d : Directive) : Option Directive :=
  match trimmed.drop first with
  | [] => some d
  | '=' :: _ => (verbosityBehindSign? (source.drop (first + 1))).map fun n => { d with verbosity := n }
  | _ => none

def field? (field : List Char) : Option (List Char × Option (List Char)) :=
  match field.splitOn '=' with
  | name :: value :: _ => if Pattern.isReadable value then some (name, some value) else none
  | _ => if field.isEmpty then none else some (field, none)

/-- A directive from the inside of its brackets on. -/
def readSpan? (source trimmed : List Char) (first : Nat) (target : Option String) :
    Option Directive := do
  let stop ← find? (fun c => c == ']' || c == '\x7b') trimmed first
  let name := String.ofList (cut source first stop)
  if trimmed[stop]? = some ']' then
    readEnd? source trimmed (stop + 1) ⟨target, some name, none, false, 5⟩
  else
    let close ← find? (· == '\x7d') trimmed (stop + 1)
    let field := cut source (stop + 1) close
    if trimmed[close + 1]? != some ']' then none
    let (fieldName, value) ← field? field
    let span := if name == "" then none else some name
    readEnd? source trimmed (close + 2) ⟨target, span, some (String.ofList fieldName), value.isSome, 5⟩

/-- Positions are counted from the first character that is no blank, and pieces are cut from the
source as it stands; so blanks before a directive become part of its pieces. -/
def read? (source : List Char) : Option Directive :=
  let trimmed := trimBlanks source
  match trimmed with
  | [] => none
  | '[' :: _ => readSpan? source trimmed 1 none
  | c :: _ =>
    if canStart c then
      match find? (fun c => c == '=' || c == '[') trimmed 0 with
      | none => some (ofWord source)
      | some stop =>
        let target := some (String.ofList (cut source 0 stop))
        if trimmed[stop]? = some '=' then
          (verbosityBehindSign? (source.drop (stop + 1))).map fun n => ⟨target, none, none, false, n⟩
        else readSpan? source trimmed (stop + 1) target
    else none

/-! ## Use -/

/-- Concerns the lines outside of all spans. -/
def isUnconditional (d : Directive) : Bool :=
  d.span.isNone && !d.asksForValues

def concerns (d : Directive) (line : Line) : Bool :=
  d.isUnconditional && (d.target.all fun t => line.target.startsWith t) &&
    d.field.all line.fieldNames.contains

def targetLength (d : Directive) : Nat :=
  match d.target with
  | some target => target.utf8ByteSize + 1
  | none => 0

/-- The more specific of two directives: the one with the longer target, or else with a field, or
else with the field that the alphabet puts last; of equal ones the later. -/
def moreSpecific (earlier later : Directive) : Directive :=
  if later.targetLength = earlier.targetLength then
    match earlier.field, later.field with
    | some first, some second => if second < first then earlier else later
    | some _, none => earlier
    | none, _ => later
  else if later.targetLength < earlier.targetLength then earlier
  else later

end Directive

/-! ## Filters -/

abbrev Filter := List Directive

namespace Filter

/-- The pieces of a text between commas, without the empty ones. -/
def pieces (text : String) : List (List Char) :=
  (text.toList.splitOn ',').filter fun piece => !piece.isEmpty

def ofText? (text : String) : Option Filter :=
  (pieces text).mapM Directive.read?

/-- Everything up to the level `info`. -/
def standard : Filter := [⟨none, none, none, false, Level.info.verbosity⟩]

/-- The filter of a variable, or the standard one if it is missing or cannot be read. -/
def ofVariable (value : Option String) : Filter :=
  (value.bind ofText?).getD standard

/-- A filter without directives shows errors only. -/
def verbosityFor (filter : Filter) (line : Line) : Nat :=
  match filter with
  | [] => Level.error.verbosity
  | _ =>
    match filter.filter (·.concerns line) with
    | [] => 0
    | d :: ds => (ds.foldl Directive.moreSpecific d).verbosity

def shows (filter : Filter) (line : Line) : Bool :=
  line.level.verbosity ≤ filter.verbosityFor line

end Filter

end DeskCalculator.Log
