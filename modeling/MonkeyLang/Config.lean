import MonkeyLang.Analysis
import MonkeyLang.Toml.Reading
/-!
# Configuration

Where executables are kept, which machine runs them, and the options of the analysis. A configuration is read from a TOML
document; what the document does not say is as in the default, and environment variables win over both. Keys that have no
meaning are refused, except among the options of the analysis.
-/

namespace MonkeyLang

structure Config where
  /-- The file an executable is saved to. -/
  artifact : String := "instructions.mnky"
  /-- The program that runs executables. -/
  vm : String := "monkey-vm"
  analysis : AnalysisOptions := {}
deriving DecidableEq, Repr

/-- Why a text gives no configuration. -/
inductive ConfigError where
  | malformed
  | unknownKey (key : String)
  | wrongType (key : String)
deriving DecidableEq, Repr

def ConfigError.message : ConfigError → String
  | malformed => "the text is not a TOML document"
  | unknownKey key => s!"unknown field `{key}`"
  | wrongType key => s!"invalid type for `{key}`"

namespace Config

def stringValue (key : String) : Toml → Except ConfigError String
  | .string value => .ok value
  | _ => .error (.wrongType key)

def boolValue (key : String) : Toml → Except ConfigError Bool
  | .boolean value => .ok value
  | _ => .error (.wrongType key)

/-- Reads the options of the analysis. They stand in a table by name or in an array in order; a date has none of them. -/
def analysisOptions : Toml → Except ConfigError AnalysisOptions
  | .table _ entries =>
    match entries.lookup "unused_as_error" with
    | some value => (boolValue "unused_as_error" value).map AnalysisOptions.mk
    | none => .ok {}
  | .array (value :: _) => (boolValue "unused_as_error" value).map AnalysisOptions.mk
  | .array [] | .dateTime _ => .ok {}
  | _ => .error (.wrongType "analysis")

/-- Takes over one entry of a document. -/
def setEntry (config : Config) (key : String) (value : Toml) : Except ConfigError Config :=
  if key = "artifact" then (stringValue key value).map fun artifact => { config with artifact }
  else if key = "vm" then (stringValue key value).map fun vm => { config with vm }
  else if key = "analysis" then (analysisOptions value).map fun analysis => { config with analysis }
  else .error (.unknownKey key)

def ofToml (text : String) : Except ConfigError Config :=
  match Toml.read? text with
  | none => .error .malformed
  | some entries => entries.foldlM (fun config entry => config.setEntry entry.1 entry.2) {}

/-- The configuration with the values that environment variables give. -/
def override (config : Config) (setting : String → Option String) : Config :=
  { config with
    artifact := (setting "MONKEY_ARTIFACT").getD config.artifact
    vm := (setting "MONKEY_VM").getD config.vm }

end Config

end MonkeyLang
