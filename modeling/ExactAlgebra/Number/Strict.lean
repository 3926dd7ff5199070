import ExactAlgebra.Number.Factor
import ExactAlgebra.Fault

/-!
# Strict operations on numbers

The operations of `Ratio`, `Root` and `Factor` on arguments that may lie outside
of their domain.  A zero divisor, a negative radicand, a root degree below one
and a number without factors are faults.
-/

namespace ExactAlgebra.Strict

/-! ## Rational arithmetic -/

def divide (a b : Rat) : Except Fault Rat :=
  if b = 0 then .error (.divisionByZero a) else .ok (a / b)

def modulo (a b : Rat) : Except Fault Rat :=
  if b = 0 then .error (.moduloByZero a) else .ok (Ratio.modulo a b)

def invert (a : Rat) : Except Fault Rat := divide 1 a

def power (a : Rat) (n : Int) : Except Fault Rat :=
  if n < 0 ∧ a = 0 then .error (.zeroToNegative n) else .ok (Ratio.power a n)

/-! ## Roots and factors -/

def integerRoot? (n degree : Int) : Except Fault (Option Int) :=
  if n < 0 then .error (.rootOfNegative n)
  else if degree < 1 then .error (.rootDegree degree)
  else .ok ((Root.exactRoot? n.toNat degree.toNat).map Int.ofNat)

def root? (a : Rat) (degree : Int) : Except Fault (Option Rat) :=
  if a.num < 0 then .error (.rootOfNegative a.num)
  else if degree < 1 then .error (.rootDegree degree)
  else .ok (Ratio.root? a degree.toNat)

/-- The factors of a number; a limit below two leaves it whole. -/
def factorize (n limit : Int) : Except Fault (List (Nat × Nat)) :=
  if n < 1 then .error (.noFactors n) else .ok (Factor.factors limit.toNat n.toNat)

def perfectPower (n : Int) : Except Fault (Nat × Nat) :=
  if n < 2 then .error (.noPerfectPower n) else .ok (Root.perfectPower n.toNat)

end ExactAlgebra.Strict
