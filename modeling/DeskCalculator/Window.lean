import DeskCalculator.Session

/-!
# The window

Buttons with their labels, the rows of the history, and what each event does to the session.
-/

namespace DeskCalculator.Window

/-! ## Buttons -/

inductive Button where
  | insert (text : String)
  | delete
  | clear
  | answer
  | equals
  | copy
  | mode
  | theme
deriving DecidableEq, Repr

def key (text : String) : String × Button := (text, .insert text)

def keypad : List (String × Button) :=
  [key "7", key "8", key "9", key "÷", ("DEL", .delete),
    key "4", key "5", key "6", key "×", ("AC", .clear),
    key "1", key "2", key "3", key "–", ("Ans", .answer),
    key "0", key ".", key "%", key "+", ("=", .equals),
    key "(", key ")", ("xʸ", .insert "^"), ("n!", .insert "!"), key "π"]

def functionKey (label name : String) : String × Button := (label, .insert (name ++ "("))

def functionKeys : List (String × Button) :=
  [functionKey "sin" "sin", functionKey "cos" "cos", functionKey "tan" "tan",
    functionKey "asin" "asin", functionKey "acos" "acos", functionKey "atan" "atan",
    functionKey "√" "sqrt", functionKey "ln" "ln", functionKey "log" "log", functionKey "exp" "exp",
    functionKey "abs" "abs", functionKey "floor" "floor", functionKey "ceil" "ceil", key "e"]

/-- The label of the theme button names the other theme. -/
def themeLabel (s : Session) : String :=
  if s.darkTheme then "☀ Clair" else "🌙 Sombre"

def modeLabel (s : Session) : String :=
  s.mode.label

def buttons (s : Session) : List (String × Button) :=
  (modeLabel s, .mode) :: (themeLabel s, .theme) :: ("Copier", .copy) :: (keypad ++ functionKeys)

def canCopy (s : Session) : Bool :=
  !s.answer.isEmpty

/-! ## History -/

def rowLabel (row : HistoryRow) : String :=
  row.expression ++ " = " ++ row.result

def rowLabels (s : Session) : List String :=
  s.history.map rowLabel

/-! ## Events -/

inductive Event where
  /-- A press of the button with this label. -/
  | click (label : String)
  /-- A press of a row of the history, counted from the top. -/
  | chooseRow (row : Nat)
  /-- Text typed at the end of the entry. -/
  | typeText (text : String)
  | enter
  | escape
deriving DecidableEq, Repr

/-- The session after an event, and what the event put on the clipboard. -/
structure Outcome where
  session : Session
  copied : Option String
deriving DecidableEq, Repr

def quiet (s : Session) : Outcome := ⟨s, none⟩

/-- The entry gets the keyboard back also where there is no answer to insert. -/
def press (s : Session) : Button → Outcome
  | .insert text => quiet (s.insert text)
  | .delete => quiet s.deleteLast.focusEntry
  | .clear => quiet s.clear.focusEntry
  | .answer => quiet s.insertAnswer.focusEntry
  | .equals => quiet s.evaluateEntry.focusEntry
  | .copy => ⟨s, if canCopy s then some s.answer else none⟩
  | .mode => quiet s.toggleMode
  | .theme => quiet s.toggleTheme

/-- A field of one line takes neither an empty text nor an end of line. -/
def isTypeable (text : String) : Bool :=
  !(text == "" || text == "\n" || text == "\x0d")

/-- A label without a button does nothing. The entry that is typed into has the keyboard. -/
def step (s : Session) : Event → Outcome
  | .click label =>
    match (buttons s).lookup label with
    | some button => press s button
    | none => quiet s
  | .chooseRow row => quiet (s.recallRow row)
  | .typeText text => quiet (if isTypeable text then s.insert text else s).unfocusEntry
  | .enter => quiet s.evaluateEntry
  | .escape => quiet s.clear

def run (s : Session) : List Event → List Outcome
  | [] => []
  | event :: events =>
    let outcome := step s event
    outcome :: run outcome.session events

end DeskCalculator.Window
