import ScriptTaint.Config.Decode
import ScriptTaint.Disk

/-!
# Finding and loading configuration files

A configuration is looked for in a directory and then in the directories around it.
-/

set_option autoImplicit false

namespace ScriptTaint

/-- Why a configuration file cannot be used. -/
inductive LoadError
  | unreadable (path : Path)
  | invalid (path : Path)
deriving DecidableEq, Repr

/-- The message, with the detail that the reader of the file or of its format gives. -/
def LoadError.message (detail : String) : LoadError → String
  | .unreadable path => "Failed to read config file '" ++ path.toString ++ "': " ++ detail
  | .invalid path => "Invalid TOML in '" ++ path.toString ++ "': " ++ detail

namespace Config

def fileName : String := "hunter.toml"

/-- The configuration file in a directory or the nearest one around it that has one. -/
def find? (d : Disk) (start : Path) : Option Path :=
  if start.isAbsolute then none
  else ((start :: start.ancestors).map (·.child fileName)).find? d.isThere

/-- The configuration in a file, and warnings about settings that have no effect. -/
def loadWithWarnings (d : Disk) (path : Path) : Except LoadError (Config × List String) :=
  match d.text? path with
  | none => .error (.unreadable path)
  | some text =>
    match (do let document ← Toml.parse? text
              let config ← Config.ofToml? document
              return (config, Config.warnings document)) with
    | none => .error (.invalid path)
    | some loaded => .ok loaded

def load (d : Disk) (path : Path) : Except LoadError Config :=
  (loadWithWarnings d path).map (·.1)

/-- The configuration for a directory. Without a file that can be used, nothing is configured. -/
def findWithWarnings (d : Disk) (start : Path) : Config × List String :=
  match find? d start with
  | none => ({}, [])
  | some path =>
    match loadWithWarnings d path with
    | .ok loaded => loaded
    | .error _ => ({}, [])

def forDirectory (d : Disk) (start : Path) : Config := (findWithWarnings d start).1

end Config

end ScriptTaint
