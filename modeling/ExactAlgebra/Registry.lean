import ExactAlgebra.Fault

/-!
# Registries

A registry holds entries by name, in the order of their first registration.  A
name that is taken is replaced only on request.
-/

namespace ExactAlgebra

/-- Entries by name. -/
structure Registry (α : Type) where
  entries : List (String × α)

namespace Registry

variable {α : Type}

def empty : Registry α := ⟨[]⟩

def get? (registry : Registry α) (name : String) : Option α :=
  (registry.entries.find? fun entry => entry.1 == name).map Prod.snd

def contains (registry : Registry α) (name : String) : Bool :=
  registry.entries.any fun entry => entry.1 == name

def size (registry : Registry α) : Nat := registry.entries.length

def names (registry : Registry α) : List String := registry.entries.map Prod.fst

/-- Adds an entry under a name. -/
def register (registry : Registry α) (name : String) (entry : α) (overwrite : Bool) :
    Except Fault (Registry α) :=
  if registry.contains name then
    if overwrite then
      .ok ⟨registry.entries.map fun old => if old.1 == name then (name, entry) else old⟩
    else .error (.registered name)
  else .ok ⟨registry.entries ++ [(name, entry)]⟩

/-- Removes an entry and returns it. -/
def remove (registry : Registry α) (name : String) : Except Fault (α × Registry α) :=
  match registry.get? name with
  | some entry => .ok (entry, ⟨registry.entries.filter fun old => old.1 != name⟩)
  | none => .error (.notRegistered name)

end Registry

end ExactAlgebra
