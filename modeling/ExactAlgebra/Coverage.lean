import ExactAlgebra.Fault

/-!
# Complete case tables

A table by cases is complete if it has an entry for every case.
-/

namespace ExactAlgebra.Coverage

/-- The cases without an entry, in ascending order. -/
def missing (cases entries : List String) : List String :=
  (cases.filter fun name => !entries.contains name).mergeSort fun a b => decide (a ≤ b)

/-- Refuses a table that is not complete. -/
def check (cases entries : List String) : Except Fault Unit :=
  let names := missing cases entries
  if names.isEmpty then .ok () else .error (.missingCases names)

end ExactAlgebra.Coverage
