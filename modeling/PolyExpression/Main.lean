import PolyExpression.Settings.Upgrade

/-!
The command that upgrades settings files in place. Every file named on the command line is upgraded; those
that cannot be are reported and left as they are, and then the command fails.
-/

open PolyExpression

/-- The bytes of a file, none if it does not exist. -/
def readFile? (path : String) : IO (Option (List UInt8)) := do
  try
    return some (← IO.FS.readBinFile path).toList
  catch
    | .noFileOrDirectory .. => return none
    | error => throw error

/-- Upgrades one file; says whether that succeeded. -/
def upgradeFileAt (path : String) : IO Bool := do
  try
    match Settings.upgradeFile (← readFile? path) with
    | .ok text =>
        IO.FS.writeFile path (String.ofList text)
        return true
    | .error error =>
        IO.eprintln (path ++ ": " ++ error.message)
        return false
  catch error =>
    IO.eprintln (path ++ ": I/O error: " ++ toString error)
    return false

def main (paths : List String) : IO UInt32 := do
  if paths.isEmpty then
    IO.eprintln "Usage: mpe-upgrade-settings <settings_file.mpe>..."
    return 1
  let upgraded ← paths.mapM upgradeFileAt
  return if upgraded.all id then 0 else 1
