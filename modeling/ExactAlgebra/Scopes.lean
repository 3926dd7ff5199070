import ExactAlgebra.Settings

/-!
# Scopes of settings

Inside of a scope some settings have other values; at its end all settings are as
they were before it.  Scopes nest.
-/

namespace ExactAlgebra

/-- The settings in force, and those that the open scopes will restore. -/
structure Scopes where
  current : Settings
  outer : List Settings

namespace Scopes

/-- No scope is open. -/
def ofSettings (settings : Settings) : Scopes := ⟨settings, []⟩

/-- Opens a scope with new values, if all of them are accepted. -/
def enter (scopes : Scopes) (values : List (String × Value)) : Except Fault Scopes := do
  return ⟨← scopes.current.withValues values, scopes.current :: scopes.outer⟩

/-- Closes the innermost scope. -/
def leave (scopes : Scopes) : Scopes :=
  match scopes.outer with
  | [] => scopes
  | previous :: rest => ⟨previous, rest⟩

/-- Changes the settings within the innermost scope. -/
def withCurrent (scopes : Scopes) (settings : Settings) : Scopes :=
  { scopes with current := settings }

end Scopes

end ExactAlgebra
