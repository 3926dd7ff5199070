import ExactAlgebra.Mode
import ExactAlgebra.Text.Identifier
import ExactAlgebra.Value

/-!
# Settings

The settings are the mode of evaluation, the extra characters that names may
contain, and the registered variables.  New values are checked one after the
other; the first that is refused ends an update, and the ones before it stay.
-/

namespace ExactAlgebra

/-- What a registered variable or a substitution stands for. -/
inductive Binding where
  | node (value : Expr)
  | rational (value : Rat)
  | text (value : String)
  deriving Inhabited

namespace Binding

/-- The binding that a value of a suitable type makes. -/
def ofValue? : Value → Option Binding
  | .node value => some (.node value)
  | .rational value => some (.rational value)
  | .integer value => some (.rational value)
  | .text value => some (.text value)
  | _ => none

def toValue : Binding → Value
  | node value => .node value
  | rational value => .rational value
  | text value => .text value

def shown : Binding → String
  | node value => value.toText
  | rational value => Ratio.text value
  | text value => value

end Binding

/-- The settings. -/
structure Settings where
  mode : Mode
  extraLetters : List Char
  bindings : List (String × Binding)

namespace Settings

/-- The built-in settings. -/
def standard : Settings := ⟨Mode.exact, [], []⟩

/-- The names of the settings, in ascending order. -/
def keys : List String :=
  ["allowed_characters", "imaginary", "numeric", "suppress_errors", "variables"]

/-! ## Checked values -/

/-- The members of a collection; of a mapping, its keys. -/
def members : Value → Except Fault (List Value)
  | .text value => .ok (value.toList.map fun c => .text (String.singleton c))
  | .list entries => .ok entries
  | .tuple entries => .ok entries
  | .set entries => .ok entries
  | .mapping entries => .ok (entries.map fun entry => .text entry.1)
  | value => .error (.notIterable value.shortType)

/-- The only character of a text. -/
def lone (value : Value) : Except Fault Char :=
  match value with
  | .text text =>
      match text.toList with
      | [c] => .ok c
      | _ => .error .wideCharacter
  | .tuple _ | .set _ => .error .wideCharacter
  | value => .error (.noLength value.shortType)

/-- A collection of single characters, in ascending order. -/
def letters (value : Value) : Except Fault (List Char) := do
  let entries ← (← members value).mapM Value.asMember
  let characters ← entries.mapM lone
  return (characters.mergeSort fun a b => decide (a ≤ b)).eraseDups

/-- The binding of a variable with a valid name. -/
def binding (name : String) (value : Value) : Except Fault (String × Binding) :=
  if Text.isIdentifier name then
    match Binding.ofValue? value with
    | some binding => .ok (name, binding)
    | none => .error (.variableValue value.type name)
  else .error (.variableName (Text.quoted name))

/-- Bindings of variables. -/
def bindingsOf : Value → Except Fault (List (String × Binding))
  | .mapping entries => entries.mapM fun entry => binding entry.1 entry.2
  | value => .error (.notMapping value.type)

/-! ## Updates -/

/-- The settings with one new value. -/
def set (settings : Settings) (key : String) (value : Value) : Except Fault Settings :=
  match key with
  | "numeric" =>
      .ok { settings with mode := { settings.mode with numeric := value.truth } }
  | "suppress_errors" =>
      .ok { settings with mode := { settings.mode with suppressErrors := value.truth } }
  | "imaginary" =>
      match value with
      | .text name =>
          if Text.isIdentifier name then
            .ok { settings with mode := { settings.mode with imaginary := name } }
          else .error (.imaginaryName value.shown)
      | _ => .error (.imaginaryName value.shown)
  | "allowed_characters" => return { settings with extraLetters := ← letters value }
  | "variables" => return { settings with bindings := ← bindingsOf value }
  | key => .error (.unknownSetting key)

/-- The settings with new values up to the first that is refused, and its fault. -/
def update (settings : Settings) : List (String × Value) → Settings × Option Fault
  | [] => (settings, none)
  | (key, value) :: rest =>
      match settings.set key value with
      | .ok settings => update settings rest
      | .error fault => (settings, some fault)

/-- Puts a value in its place, or at the end. -/
def putValue (name : String) (value : Value) : List (String × Value) → List (String × Value)
  | [] => [(name, value)]
  | (other, old) :: rest =>
      if other = name then (name, value) :: rest
      else (other, old) :: putValue name value rest

def binding? (settings : Settings) (name : String) : Option Binding :=
  (settings.bindings.find? fun entry => entry.1 == name).map Prod.snd

/-- The values of the registered variables. -/
def registered (settings : Settings) : List (String × Value) :=
  settings.bindings.map fun entry => (entry.1, entry.2.toValue)

/-- A call that changes settings. -/
inductive Change where
  /-- New values for some settings. -/
  | update (values : List (String × Value))
  /-- New values for some variables. -/
  | define (values : List (String × Value))
  /-- Variables to be forgotten. -/
  | undefine (names : List String)

/-- The settings after a call, and its fault.  All registered variables are checked
again, and only registered ones can be forgotten. -/
def change (settings : Settings) : Change → Settings × Option Fault
  | .update values => settings.update values
  | .define values =>
      let merged := values.foldl (fun known entry => putValue entry.1 entry.2 known)
        settings.registered
      settings.update [("variables", .mapping merged)]
  | .undefine names =>
      let missing := names.filter fun name => (settings.binding? name).isNone
      if missing.isEmpty then
        let kept := settings.registered.filter fun entry => !names.contains entry.1
        settings.update [("variables", .mapping kept)]
      else (settings, some (.unknownVariables missing))

/-- The settings after a call without fault. -/
def changed (settings : Settings) (call : Change) : Except Fault Settings :=
  match settings.change call with
  | (settings, none) => .ok settings
  | (_, some fault) => .error fault

/-- The settings with all of the new values. -/
def withValues (settings : Settings) (values : List (String × Value)) : Except Fault Settings :=
  settings.changed (.update values)

/-- The settings with new or changed variables. -/
def define (settings : Settings) (values : List (String × Value)) : Except Fault Settings :=
  settings.changed (.define values)

/-- The settings without some variables. -/
def undefine (settings : Settings) (names : List String) : Except Fault Settings :=
  settings.changed (.undefine names)

/-! ## Display -/

/-- What a setting is displayed as. -/
inductive Display where
  | flag (value : Bool)
  | text (value : String)
  | texts (values : List String)
  | named (values : List (String × String))
  deriving DecidableEq, Repr

/-- The display of a setting. -/
def display? (settings : Settings) (key : String) : Option Display :=
  match key with
  | "numeric" => some (.flag settings.mode.numeric)
  | "suppress_errors" => some (.flag settings.mode.suppressErrors)
  | "imaginary" => some (.text settings.mode.imaginary)
  | "allowed_characters" => some (.texts (settings.extraLetters.map String.singleton))
  | "variables" =>
      some (.named (settings.bindings.map fun entry => (entry.1, entry.2.shown)))
  | _ => none

/-- Lines between brackets, indented below the line that opens them. -/
def block (margin opening closing : String) (lines : List String) : String :=
  if lines.isEmpty then opening ++ closing
  else
    opening ++ "\n" ++
      ",\n".intercalate (lines.map fun line => margin ++ "    " ++ line) ++
      "\n" ++ margin ++ closing

/-- The sorted lines of an object. -/
def objectLines (margin : String) (entries : List (String × String)) : String :=
  block margin "\x7b" "\x7d" ((entries.mergeSort fun a b => decide (a.1 ≤ b.1)).map
    fun entry => Text.strictlyQuoted entry.1 ++ ": " ++ entry.2)

/-- The written form of a displayed setting, below one level of indentation. -/
def Display.written : Display → String
  | flag value => if value then "true" else "false"
  | text value => Text.strictlyQuoted value
  | texts values => block "    " "[" "]" (values.map Text.strictlyQuoted)
  | named values =>
      objectLines "    " (values.map fun entry => (entry.1, Text.strictlyQuoted entry.2))

/-- The settings as an object in a data format, one key on each line. -/
def text (settings : Settings) : String :=
  objectLines "" (keys.filterMap fun key =>
    (settings.display? key).map fun value => (key, value.written))

end Settings

end ExactAlgebra
