import DeskCalculator.Evaluation
import DeskCalculator.Settings

/-!
# Sessions

A session holds what the user types, what is displayed, the last answer and the history of answers.
Editing the entry clears the display; a fault takes the answer away and leaves the history as it is.
-/

namespace DeskCalculator

structure HistoryRow where
  expression : String
  result : String
deriving DecidableEq, Repr

/-- The state of the calculator; the newest row of the history comes first. -/
structure Session where
  entry : String
  display : String
  answer : String
  history : List HistoryRow
  historyLimit : Nat
  mode : AngleMode
  darkTheme : Bool
  /-- The entry is to get the keyboard. -/
  entryFocused : Bool
deriving DecidableEq, Repr

namespace Session

def start (settings : Settings) : Session where
  entry := ""
  display := ""
  answer := ""
  history := []
  historyLimit := settings.historyLimit
  mode := settings.mode
  darkTheme := settings.darkTheme
  entryFocused := true

/-! ## Editing -/

def insert (s : Session) (text : String) : Session :=
  { s with entry := s.entry ++ text, display := "", entryFocused := true }

def clear (s : Session) : Session :=
  { s with entry := "", display := "", entryFocused := true }

def deleteLast (s : Session) : Session :=
  { s with entry := String.ofList s.entry.toList.dropLast, display := "", entryFocused := true }

/-- Without an answer nothing happens. -/
def insertAnswer (s : Session) : Session :=
  if s.answer.isEmpty then s else s.insert s.answer

/-- Takes the expression of a row back into the entry. -/
def recallRow (s : Session) (row : Nat) : Session :=
  match s.history[row]? with
  | some r => { s with entry := r.expression, display := "", entryFocused := true }
  | none => s

/-! ## Switches -/

/-- The display stays as it is. -/
def toggleMode (s : Session) : Session :=
  { s with mode := s.mode.toggle, entryFocused := true }

def toggleTheme (s : Session) : Session :=
  { s with darkTheme := !s.darkTheme }

/-! ## The keyboard -/

def focusEntry (s : Session) : Session :=
  { s with entryFocused := true }

/-- The entry has got the keyboard. -/
def unfocusEntry (s : Session) : Session :=
  { s with entryFocused := false }

/-! ## Answers -/

/-- What is displayed for every fault. -/
def faultText : String := "Error"

def recordResult (s : Session) (result : String) : Session :=
  { s with
    display := result
    answer := result
    history := (⟨s.entry, result⟩ :: s.history).take s.historyLimit
    entryFocused := true }

def recordFault (s : Session) : Session :=
  { s with display := faultText, answer := "", entryFocused := true }

def recordBlank (s : Session) : Session :=
  { s with display := "", entryFocused := true }

def evaluateEntry (s : Session) : Session :=
  match evaluate s.mode s.entry with
  | .ok (some x) => s.recordResult (Display.text x)
  | .ok none => s.recordBlank
  | .error _ => s.recordFault

end Session

end DeskCalculator
