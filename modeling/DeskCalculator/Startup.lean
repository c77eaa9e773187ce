import DeskCalculator.Log.Filter
import DeskCalculator.Settings.File

/-!
# The log of a start

A start tells how the settings were read, unless there is no file, and then with which settings the
session begins.
-/

namespace DeskCalculator.Startup

open Log

def programTarget : String := "calculatrice_glow"

def settingsTarget : String := programTarget ++ "::reglages"

def faultText (path : String) : SettingsFault → String
  | .unreadable => "lecture de " ++ path
  | .malformed => "format de " ++ path

def settingsLines (path : String) (file : SettingsFile) : List Line :=
  match file.read with
  | .ok (some _) => [⟨.info, settingsTarget, "réglages chargés", [("chemin", path)]⟩]
  | .ok none => []
  | .error fault =>
    [⟨.warn, settingsTarget, "réglages ignorés, valeurs par défaut", [("erreur", faultText path fault)]⟩]

def modeText : AngleMode → String
  | .degrees => "Degrees"
  | .radians => "Radians"

def startLine (settings : Settings) : Line :=
  ⟨.info, programTarget, "démarrage",
    [("mode", modeText settings.mode), ("historique", toString settings.historyLimit)]⟩

def lines (path : String) (file : SettingsFile) : List Line :=
  settingsLines path file ++ [startLine file.load]

def log (filterText : Option String) (path : String) (file : SettingsFile) : List Line :=
  (lines path file).filter (Filter.ofVariable filterText).shows

end DeskCalculator.Startup
