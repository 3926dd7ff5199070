/-!
# Approximate functions

Methods on floats for the functions that have no exact value.  A method has no
value outside of its domain or where the result overflows; the gamma function may
answer with an infinity or with no number at its poles.
-/

namespace ExactAlgebra.Approximation

/-! ## Domains -/

/-- A value that is no infinity. -/
def finite? (value : Float) : Option Float :=
  if value.isFinite then some value else none

/-- A reciprocal of a number that is not zero. -/
def reciprocal? (value : Float) : Option Float :=
  if value == 0 then none else finite? (1 / value)

/-- A function on an interval. -/
def between (low high : Float) (function : Float → Float) (x : Float) : Option Float :=
  if low ≤ x && x ≤ high then finite? (function x) else none

/-! ## Logarithms -/

def log? (x base : Float) : Option Float :=
  if 0 < x && 0 < base then
    let divisor := base.log
    if divisor == 0 then none else finite? (x.log / divisor)
  else none

def log10? (x : Float) : Option Float :=
  if 0 < x then finite? x.log10 else none

/-- The base of the natural logarithm. -/
def e : Float := 2.718281828459045

/-- The ratio of a circle's circumference to its diameter. -/
def pi : Float := 3.141592653589793

/-! ## The gamma function -/

/-- Coefficients of Lanczos' series, from the second on. -/
def lanczos : List Float :=
  [676.5203681218851, -1259.1392167224028, 771.32342877765313, -176.61502916214059,
   12.507343278686905, -0.13857109526572012, 9.9843695780195716e-6,
   1.5056327351493116e-7]

/-- Lanczos' approximation for arguments from one half on. -/
def upperGamma (x : Float) : Float :=
  let shifted := x - 1
  let series := (lanczos.foldl (fun (sum, place) coefficient =>
    (sum + coefficient / (shifted + place), place + 1))
    ((0.99999999999980993, 1) : Float × Float)).1
  let base := shifted + 7.5
  let half := base.pow ((shifted + 0.5) / 2)
  (2 * pi).sqrt * (half * (-base).exp) * half * series

/-- The gamma function; infinite at zero, and no number at negative integers. -/
def gamma (x : Float) : Float :=
  if x == 0 then 1 / x
  else if x < 0 && x.floor == x then 0.0 / 0.0
  else if x < 0.5 then pi / ((pi * x).sin * upperGamma (1 - x))
  else upperGamma x

/-! ## The error function -/

/-- The series with positive terms, for arguments of moderate size. -/
def erfSeries (x : Float) : Float :=
  let (sum, _, _) := (List.range 200).foldl (fun (sum, term, place) _ =>
    let next := term * 2 * x * x / (2 * place + 3)
    (sum + next, next, place + 1)) ((x, x, 0) : Float × Float × Float)
  2 / pi.sqrt * (-(x * x)).exp * sum

def erf (x : Float) : Float :=
  if x < -6 then -1 else if 6 < x then 1 else erfSeries x

/-! ## Double factorials -/

/-- The product of `n`, `n - 2` and so on. -/
def descending : Nat → Float
  | 0 => 1
  | 1 => 1
  | n + 2 => (n + 2).toFloat * descending n

/-- The double factorial of a whole number. -/
def doubleFactorial? (x : Float) : Option Float :=
  if x < 0 || x.floor != x then none
  else some (if 400 < x then 1.0 / 0.0 else descending x.toUInt64.toNat)

end ExactAlgebra.Approximation
