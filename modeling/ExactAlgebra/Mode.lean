/-!
# Modes of evaluation

A mode says whether constants collapse to decimal approximations, whether domain
faults become unevaluated calls, and which variable is the imaginary unit.
-/

namespace ExactAlgebra

/-- How expressions are evaluated. -/
structure Mode where
  numeric : Bool
  suppressErrors : Bool
  imaginary : String
  deriving DecidableEq, Repr

namespace Mode

/-- Exact evaluation that reports faults, with the imaginary unit `i`. -/
def exact : Mode := ⟨false, false, "i"⟩

end Mode

end ExactAlgebra
