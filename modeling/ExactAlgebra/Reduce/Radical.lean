import ExactAlgebra.Reduce.Sum
import ExactAlgebra.Mode
import ExactAlgebra.Number.Double
import ExactAlgebra.Number.Strict

/-!
# Products of radicals

A product of rational powers of integers has one canonical form.  Every base is
factored, the exponents of each prime are added, integer parts of exponents move
into a rational coefficient, and the primes that are left are grouped by their
fractional exponent.  Powers of minus one are kept apart: an odd root is a sign,
a square root is the imaginary unit, and any other root is a radical with base
minus one, or its value in numeric mode.
-/

namespace ExactAlgebra.Reduce

/-! ## Powers of minus one -/

/-- The rational that a float denotes in its shortest written form. -/
def rationalOf (x : Float) : Except Fault Rat :=
  match Double.shortestRat? x with
  | some value => .ok value
  | none => .error (.notFinite (Double.text x))

/-- The float nearest to a rational. -/
def floatOf (a : Rat) : Except Fault Float :=
  match Double.ofRat? a with
  | some x => .ok x
  | none => .error .floatOverflow

/-- The ratio of a circle's circumference to its diameter. -/
def piFloat : Float := 3.141592653589793

/-- A power of minus one as a sign and an optional extra factor. -/
def negativeOnePower (mode : Mode) (power : Rat) : Except Fault (Rat × Option Expr) := do
  let turn := Ratio.modulo power 2
  if turn.den % 2 = 1 then
    return (if turn.num % 2 = 0 then 1 else -1, none)
  else if turn.den = 2 then
    return (if turn = 1 / 2 then 1 else -1, some (.named mode.imaginary))
  else if mode.numeric then
    let angle := piFloat * (← floatOf turn)
    let real ← rationalOf angle.cos
    let imaginary ← rationalOf angle.sin
    let value ← plus (.number real) (.symbol imaginary mode.imaginary 1)
    return (1, some value)
  else return (1, some (.radical 1 (-1) turn))

/-! ## Prime exponents -/

/-- Exponents of numbers, by ascending number. -/
abbrev Exponents := List (Nat × Rat)

/-- Adds to the exponent of a number. -/
def addExponent (prime : Nat) (exponent : Rat) : Exponents → Exponents
  | [] => [(prime, exponent)]
  | (other, old) :: rest =>
      if prime < other then (prime, exponent) :: (other, old) :: rest
      else if prime = other then (other, old + exponent) :: rest
      else (other, old) :: addExponent prime exponent rest

/-- Adds the exponents of the factors of an integer, taken to a power. -/
def addFactors (base : Int) (power : Rat) (exponents : Exponents) :
    Except Fault Exponents := do
  let factors ← Strict.factorize base Factor.defaultLimit
  return factors.foldl
    (fun exponents factor => addExponent factor.1 (factor.2 * power) exponents) exponents

/-- The exponents of all bases other than minus one, and the exponent of minus
one. -/
def collectExponents (radicals : List (Rat × Rat)) : Except Fault (Rat × Exponents) :=
  radicals.foldlM (fun (turn, exponents) (base, power) =>
    if base = -1 then .ok (turn + power, exponents)
    else return (turn, ← addFactors (Ratio.truncate base) power exponents)) (0, [])

/-! ## The canonical form -/

/-- The product of the integral parts of prime powers. -/
def integralPart (exponents : Exponents) : Rat :=
  exponents.foldl
    (fun product (prime, exponent) => product * Ratio.power prime exponent.floor) 1

/-- Multiplies into the group of a fractional exponent, or opens it at the end. -/
def putRoot (power : Rat) (prime : Nat) : List (Rat × Nat) → List (Rat × Nat)
  | [] => [(power, prime)]
  | (other, base) :: rest =>
      if other = power then (other, base * prime) :: rest
      else (other, base) :: putRoot power prime rest

/-- The bases of the fractional parts of prime powers, by exponent. -/
def fractionalPart (exponents : Exponents) : List (Rat × Nat) :=
  exponents.foldl (fun groups (prime, exponent) =>
    let rest := exponent - exponent.floor
    if rest = 0 then groups else putRoot rest prime groups) []

/-- A product of radicals: a coefficient, radicals with distinct exponents, and
other factors still to be multiplied in. -/
structure RadicalForm where
  coefficient : Rat
  factors : List Expr
  extras : List Expr
  deriving Inhabited

/-- The canonical form of a product of powers, given by base and exponent. -/
def combineRadicals (mode : Mode) (radicals : List (Rat × Rat)) :
    Except Fault RadicalForm := do
  let (turn, exponents) ← collectExponents radicals
  let (sign, extra) ← negativeOnePower mode turn
  let roots := (fractionalPart exponents).map fun (power, base) =>
    Expr.radical 1 base power
  let coefficient := sign * integralPart exponents
  match extra with
  | none => return ⟨coefficient, roots, []⟩
  | some (.radical c b p) => return ⟨coefficient, .radical c b p :: roots, []⟩
  | some other => return ⟨coefficient, roots, [other]⟩

end ExactAlgebra.Reduce
