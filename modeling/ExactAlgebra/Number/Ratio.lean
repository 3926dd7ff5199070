import ExactAlgebra.Number.Root

/-!
# Rational numbers

Operations on exact rationals beyond the field operations: integer parts,
remainders with the sign of the divisor, common divisors and multiples, and the
written form `p` or `p/q`.
-/

namespace ExactAlgebra.Ratio

/-- True for a rational with denominator one. -/
def isInteger (a : Rat) : Bool := a.den == 1

/-- The integer part, rounded toward zero. -/
def truncate (a : Rat) : Int := Int.tdiv a.num a.den

/-- The remainder of `a` by `b`, with the sign of `b`; `b` is not zero. -/
def modulo (a b : Rat) : Rat := a - b * (a / b).floor

/-- Minus one, zero or one as `a` is less than, equal to or greater than `b`. -/
def sign (a b : Rat) : Int :=
  if a < b then -1 else if a = b then 0 else 1

/-- The integral power of a rational. -/
def power (a : Rat) (n : Int) : Rat :=
  if 0 ≤ n then a ^ n.toNat else (a ^ (-n).toNat)⁻¹

/-- An integer times a power of a positive base. -/
def scaled (base : Nat) (value exponent : Int) : Rat :=
  if 0 ≤ exponent then ((value * Nat.pow base exponent.toNat : Int) : Rat)
  else mkRat value (Nat.pow base (-exponent).toNat)

/-- The largest rational that divides both arguments into integers. -/
def gcd (a b : Rat) : Rat :=
  mkRat (a.num.natAbs.gcd b.num.natAbs) (a.den.lcm b.den)

/-- The least positive rational that both arguments divide into integers; zero
if one of them is zero. -/
def lcm (a b : Rat) : Rat :=
  if a = 0 ∨ b = 0 then 0
  else mkRat (a.num.natAbs.lcm b.num.natAbs) (a.den.gcd b.den)

/-- The exact root of a rational that is not negative. -/
def root? (a : Rat) (degree : Nat) : Option Rat := do
  let numerator ← Root.exactRoot? a.num.toNat degree
  let denominator ← Root.exactRoot? a.den degree
  some (mkRat numerator denominator)

/-- The written form `p` or `p/q`. -/
def text (a : Rat) : String :=
  if a.den = 1 then toString a.num else toString a.num ++ "/" ++ toString a.den

/-- The number of decimal digits of a positive number. -/
def digitCount (n : Nat) : Nat := (Nat.toDigits 10 n).length

/-- The exponent `e` with `10 ^ e ≤ |a| < 10 ^ (e + 1)`, for `a` not zero. -/
def decimalExponent (a : Rat) : Int :=
  let guess : Int := (digitCount a.num.natAbs : Int) - digitCount a.den
  if (if 0 ≤ guess then a.den * Nat.pow 10 guess.toNat ≤ a.num.natAbs
      else a.den ≤ a.num.natAbs * Nat.pow 10 (-guess).toNat)
  then guess else guess - 1

end ExactAlgebra.Ratio
