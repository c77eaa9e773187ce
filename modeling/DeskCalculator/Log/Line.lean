/-!
# Lines of the log
-/

namespace DeskCalculator.Log

inductive Level where
  | error
  | warn
  | info
  | debug
  | trace
deriving DecidableEq, Repr

namespace Level

def label : Level → String
  | error => "ERROR"
  | warn => "WARN"
  | info => "INFO"
  | debug => "DEBUG"
  | trace => "TRACE"

/-- Levels by how much they tell; zero is for a filter that shows nothing. -/
def verbosity : Level → Nat
  | error => 1
  | warn => 2
  | info => 3
  | debug => 4
  | trace => 5

end Level

/-- A line with the part of the program it comes from, its message, and named values. -/
structure Line where
  level : Level
  target : String
  message : String
  fields : List (String × String)
deriving DecidableEq, Repr

namespace Line

def text (line : Line) : String :=
  line.message ++ String.join (line.fields.map fun (name, value) => " " ++ name ++ "=" ++ value)

def fieldNames (line : Line) : List String :=
  "message" :: line.fields.map Prod.fst

end Line

end DeskCalculator.Log
