import DeskCalculator.Startup

/-!
# The start of the program

Reads the settings file from where the environment says it is and prints the log of the start.
-/

namespace DeskCalculator.Program

/-- What stands at a path. -/
def settingsFileAt (path : String) : IO SettingsFile := do
  try
    return .content (← IO.FS.readBinFile path)
  catch
    | .noFileOrDirectory .. => return .absent
    | _ => return .unreadable

def printLine (line : Log.Line) : IO Unit :=
  IO.println (line.level.label ++ " " ++ line.text)

end DeskCalculator.Program

open DeskCalculator

def main : IO Unit := do
  let home := (← IO.getEnv "HOME").getD ""
  let path := settingsPath (← IO.getEnv "XDG_CONFIG_HOME") home
  let file ← Program.settingsFileAt path
  (Startup.log (← IO.getEnv "RUST_LOG") path file).forM Program.printLine
