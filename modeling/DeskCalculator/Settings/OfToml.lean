import DeskCalculator.Settings
import DeskCalculator.Toml.Document

/-!
# Settings from TOML

Three keys are known, and each has a standard value where it is missing; other keys are ignored. An
item of the wrong type makes all settings invalid.
-/

namespace DeskCalculator.Settings

open Toml

/-! ## Items -/

def modeNamed? : String → Option AngleMode
  | "degrees" | "deg" => some .degrees
  | "radians" | "rad" => some .radians
  | _ => none

/-- The table or array has no content. -/
def isHollow : Item → Bool
  | .table _ [] => true
  | .array [] => true
  | _ => false

/-- A mode is its name, or a table that has the name as its only key and nothing under it. -/
def modeOf? : Item → Option AngleMode
  | .string name => modeNamed? name
  | .table _ [(name, item)] => if isHollow item then modeNamed? name else none
  | _ => none

/-- A count is a natural number of 64 bits. -/
def countOf? : Item → Option Nat
  | .integer n => if 0 ≤ n ∧ n.toNat < UInt64.size then some n.toNat else none
  | _ => none

def switchOf? : Item → Option Bool
  | .boolean b => some b
  | _ => none

def valueAt? {α : Type} (entries : Entries) (key : String) (read : Item → Option α) (standard : α) :
    Option α :=
  match entries.lookup key with
  | some item => read item
  | none => some standard

/-! ## Documents -/

def ofEntries? (entries : Entries) : Option Settings := do
  let mode ← valueAt? entries "mode_angle" modeOf? standard.mode
  let historyLimit ← valueAt? entries "historique_max" countOf? standard.historyLimit
  let darkTheme ← valueAt? entries "theme_sombre" switchOf? standard.darkTheme
  return clamp ⟨mode, historyLimit, darkTheme⟩

def ofToml? (text : String) : Option Settings :=
  (document? text).bind ofEntries?

theorem ofEntries?_nil : ofEntries? [] = some standard := by decide

end DeskCalculator.Settings
