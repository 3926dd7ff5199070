import ExactAlgebra.Expr.Basic

/-!
# Terms, degrees and variables

A sum with exponent one is read as the list of its terms, through all nesting.
The degree of a term adds the exponents of its factors, and the names of an
expression are those of the variables anywhere in it.
-/

namespace ExactAlgebra.Expr

/-! ## Terms -/

mutual

/-- The terms of a sum with exponent one, flattened; else the expression alone. -/
def terms : Expr → List Expr
  | polynomial coeff power children =>
      if power = 1 then slotsTerms children else [polynomial coeff power children]
  | composite coeff power children =>
      if power = 1 then slotsTerms children else [composite coeff power children]
  | node => [node]

def slotsTerms : List (Key × Expr) → List Expr
  | [] => []
  | (_, child) :: rest => child.terms ++ slotsTerms rest

end

/-! ## Degree -/

mutual

/-- The total degree; a sum with exponent one has that of its highest term, and
there is none without terms. -/
def degree? : Expr → Option Rat
  | number _ | exponential .. => some 0
  | radical _ _ power | symbol _ _ power | call _ _ _ power => some power
  | product _ _ factors => totalDegree? factors
  | polynomial _ power children | composite _ power children =>
      if power = 1 then highestDegree? children else some power

def totalDegree? : List (Key × Expr) → Option Rat
  | [] => some 0
  | (_, child) :: rest => do
      let first ← child.degree?
      let total ← totalDegree? rest
      some (first + total)

def highestDegree? : List (Key × Expr) → Option Rat
  | [] => none
  | (_, child) :: rest => do
      let first ← child.degree?
      match rest with
      | [] => some first
      | _ => do
          let highest ← highestDegree? rest
          some (if first < highest then highest else first)

end

def degree (node : Expr) : Rat := node.degree?.getD 0

/-! ## Parts -/

mutual

/-- The expression and all expressions beneath it. -/
def walk : Expr → List Expr
  | radical coeff base power => [radical coeff base power, number base]
  | exponential coeff base exponent =>
      exponential coeff base exponent :: exponent.walk ++ base.walk
  | call coeff name args power => call coeff name args power :: argsWalk args
  | polynomial coeff power children => polynomial coeff power children :: slotsWalk children
  | product coeff power children => product coeff power children :: slotsWalk children
  | composite coeff power children => composite coeff power children :: slotsWalk children
  | node => [node]

def argsWalk : List Expr → List Expr
  | [] => []
  | arg :: args => arg.walk ++ argsWalk args

def slotsWalk : List (Key × Expr) → List Expr
  | [] => []
  | (_, child) :: rest => child.walk ++ slotsWalk rest

end

/-- The name of a variable. -/
def variableName? : Expr → Option String
  | symbol _ name _ => some name
  | _ => none

/-- The sorted names of all variables. -/
def variableNames (node : Expr) : List String :=
  ((node.walk.filterMap variableName?).mergeSort fun a b => decide (a ≤ b)).eraseDups

end ExactAlgebra.Expr
