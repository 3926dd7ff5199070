import ExactAlgebra.Configuration.Interpolation
import ExactAlgebra.Settings

/-!
# Settings in configuration documents

One section of a document holds the settings and another one the variables, which
are kept as texts.  The names of settings are checked in the order in which they
are written; their values only as far as their form goes.
-/

namespace ExactAlgebra.Configuration

/-- The settings that a document gives. -/
structure SettingsFile where
  numeric : Bool
  suppressErrors : Bool
  imaginary : String
  allowedCharacters : List String
  assignments : Options
  deriving DecidableEq, Repr

namespace SettingsFile

/-- The settings of an empty document. -/
def standard : SettingsFile := ⟨false, false, "i", [], []⟩

/-- The name of the section with the settings. -/
def settingsSection : String := "symcore"

/-- The name of the section with the variables. -/
def variablesSection : String := "variables"

/-! ## Values -/

/-- The flag that a word stands for. -/
def flag? (text : String) : Option Bool :=
  match (Text.strip text).toLower with
  | "1" | "yes" | "true" | "on" => some true
  | "0" | "no" | "false" | "off" => some false
  | _ => none

/-- The flag in the text of a setting. -/
def flag (path key text : String) : Except Fault Bool :=
  match flag? text with
  | some value => .ok value
  | none => .error (.optionValue text key path)

/-- The settings with the text of one of them. -/
def put (path : String) (settings : SettingsFile) (key text : String) :
    Except Fault SettingsFile :=
  match key with
  | "numeric" => return { settings with numeric := ← flag path key text }
  | "suppress_errors" => return { settings with suppressErrors := ← flag path key text }
  | "imaginary" => .ok { settings with imaginary := Text.strip text }
  | "allowed_characters" =>
      .ok { settings with allowedCharacters := (Text.words text.toList).map String.ofList }
  | key => .error (.unknownOption key path)

/-! ## Reading -/

/-- The options of a section, of which texts are expanded when they are needed. -/
def ofDocument (path : String) (document : Document) : Except Fault SettingsFile := do
  let settings ← match document.section? variablesSection with
    | none => .ok standard
    | some own => do
        let options := document.options own
        let assignments ← options.mapM fun entry =>
          return (entry.1, Text.strip (← Interpolation.expand options entry.2))
        pure { standard with assignments := assignments }
  match document.section? settingsSection with
  | none => return settings
  | some own =>
      let options := document.options own
      options.foldlM (fun settings entry => do
        put path settings entry.1 (← Interpolation.expand options entry.2)) settings

/-- The settings in the text of a file. -/
def ofText (path text : String) : Except Fault SettingsFile := do
  ofDocument path (← Document.ofText text)

/-! ## Use -/

/-- The settings as values to be checked. -/
def values (settings : SettingsFile) : List (String × Value) :=
  [("numeric", .bool settings.numeric),
   ("suppress_errors", .bool settings.suppressErrors),
   ("imaginary", .text settings.imaginary),
   ("allowed_characters", .set (settings.allowedCharacters.map .text)),
   ("variables", .mapping (settings.assignments.map fun entry => (entry.1, .text entry.2)))]

/-- The display of the settings by name. -/
def displays (settings : SettingsFile) : List (String × Settings.Display) :=
  [("numeric", .flag settings.numeric),
   ("suppress_errors", .flag settings.suppressErrors),
   ("imaginary", .text settings.imaginary),
   ("allowed_characters",
    .texts (settings.allowedCharacters.mergeSort fun a b => decide (a ≤ b)).eraseDups),
   ("variables", .named settings.assignments)]

/-- The checked settings. -/
def toSettings (settings : SettingsFile) : Except Fault Settings :=
  Settings.standard.withValues settings.values

end SettingsFile

end ExactAlgebra.Configuration
