/-!
# Configuration errors
-/

namespace ObjectFlow.Config

/-- Why a configuration is refused. -/
inductive Error where
  /-- A number is outside its bounds. -/
  | range (field value min max hint : String)
  | missingVersion
  | unsupportedVersion (found : Nat) (supported : List Nat)
  | unknownPreset (name : String)
  /-- Two settings contradict each other. -/
  | conflict (issue fix : String)
  /-- The file cannot be read. -/
  | unreadable
  /-- The text is not a configuration document. -/
  | malformed
  | validation (reason : String)
  deriving DecidableEq, Repr

def Error.message : Error → String
  | range field value min max hint =>
    "Invalid range for field '" ++ field ++ "': " ++ value ++ " not in " ++ min ++ "..=" ++ max ++
      ". " ++ hint
  | missingVersion =>
    "Missing 'version' field in configuration file. Add 'version: 1' to the top of your YAML file."
  | unsupportedVersion found supported =>
    "Unsupported configuration version " ++ toString found ++ ". Supported versions: " ++
      ", ".intercalate (supported.map fun version => toString version)
  | unknownPreset name =>
    "Unknown preset '" ++ name ++ "'. Valid presets: fast, balanced, thorough"
  | conflict issue fix => "Configuration conflict: " ++ issue ++ ". Fix: " ++ fix
  | unreadable => "IO error"
  | malformed => "YAML parsing error"
  | validation reason => "Validation error: " ++ reason

end ObjectFlow.Config
