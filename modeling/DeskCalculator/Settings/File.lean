import DeskCalculator.Settings.OfToml

/-!
# The settings file

Where the file is looked for, what reading it gives, and the settings that hold in the end. A
missing file is no fault, and after any fault the standard settings hold.
-/

namespace DeskCalculator

/-! ## Path -/

def joinPath (base name : String) : String :=
  if base == "" || base.endsWith "/" then base ++ name else base ++ "/" ++ name

/-- The path of the file. A directory for configuration counts only if its path is absolute. -/
def settingsPath (configHome : Option String) (home : String) : String :=
  let directory := match configHome with
    | some path => if path.startsWith "/" then path else joinPath home ".config"
    | none => joinPath home ".config"
  joinPath (joinPath directory "calculatrice-glow") "config.toml"

/-! ## Content -/

inductive SettingsFile where
  | absent
  /-- Something that is no file, such as a directory. -/
  | unreadable
  | content (bytes : ByteArray)

inductive SettingsFault where
  /-- There is no text. -/
  | unreadable
  /-- The text gives no settings. -/
  | malformed
deriving DecidableEq, Repr

namespace SettingsFile

def text? : SettingsFile → Except SettingsFault (Option String)
  | absent => .ok none
  | unreadable => .error .unreadable
  | content bytes =>
    match String.fromUTF8? bytes with
    | some text => .ok (some text)
    | none => .error .unreadable

def read (file : SettingsFile) : Except SettingsFault (Option Settings) :=
  match file.text? with
  | .error fault => .error fault
  | .ok none => .ok none
  | .ok (some text) =>
    match Settings.ofToml? text with
    | some settings => .ok (some settings)
    | none => .error .malformed

def load (file : SettingsFile) : Settings :=
  match file.read with
  | .ok (some settings) => settings
  | .ok none => .standard
  | .error _ => .standard

end SettingsFile

end DeskCalculator
