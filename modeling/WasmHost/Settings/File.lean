import WasmHost.FileSystem
import WasmHost.Settings.Decode

/-!
# Settings files

`SettingsFile.load` reads the settings of an embedding from a TOML file. Either the file cannot be
read, or its text is refused.
-/

namespace WasmHost

/-- Why no settings came from a file. -/
inductive SettingsFileError where
  | unreadable (path : String) (fault : PathFault)
  | refused (refusal : Datum.Refusal)
deriving DecidableEq

/-- The text for a file that cannot be read. -/
def SettingsFileError.unreadableMessage (path : String) (fault : PathFault) : String :=
  "Failed to read settings file '" ++ path ++ "': " ++ fault.message

namespace SettingsFile

/-- Reads settings from the text of a TOML file. -/
def ofText (text : String) : Except SettingsFileError SettingsFile :=
  (Datum.ofToml SettingsFile.ofDatum text).mapError .refused

/-- Reads settings from a TOML file. -/
def load (files : FileSystem) (path : String) : Except SettingsFileError SettingsFile :=
  match files.readText path with
  | .error fault => .error (.unreadable path fault)
  | .ok text => ofText text

end SettingsFile

end WasmHost
