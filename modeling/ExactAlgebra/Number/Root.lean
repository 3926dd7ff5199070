/-!
# Exact integer roots and perfect powers

Newton's iteration from above finds the integer part of a root; a root is exact
when its power gives the radicand back.  Perfect powers are searched from the
largest exponent down, and the search repeats on the base that it finds.
-/

namespace ExactAlgebra.Root

/-! ## Newton's iteration -/

/-- One Newton step for the `degree`-th root of `radicand`, rounded down. -/
def step (radicand degree guess : Nat) : Nat :=
  ((degree - 1) * guess + radicand / Nat.pow guess (degree - 1)) / degree

/-- Newton steps for as long as they decrease the guess. -/
def descend (radicand degree guess : Nat) : Nat :=
  let next := step radicand degree guess
  if next < guess then descend radicand degree next else guess
termination_by guess

/-- The number of binary digits; zero has none. -/
def bitLength (n : Nat) : Nat :=
  if n = 0 then 0 else n.log2 + 1

/-- A power of two that is no less than the `degree`-th root of `radicand`. -/
def upperGuess (radicand degree : Nat) : Nat :=
  Nat.pow 2 ((bitLength radicand + degree - 1) / degree)

/-- The exact `degree`-th root of `radicand`, for a positive degree. -/
def exactRoot? (radicand degree : Nat) : Option Nat :=
  if radicand < 2 ∨ degree = 1 then some radicand
  else
    let root := descend radicand degree (upperGuess radicand degree)
    if Nat.pow root degree = radicand then some root else none

/-! ## Perfect powers -/

/-- The exact root of `n` with the largest degree between two and `bound`. -/
def deepest? (n : Nat) : (bound : Nat) → Option (Nat × Nat)
  | 0 => none
  | bound + 1 =>
      if bound = 0 then none
      else match exactRoot? n (bound + 1) with
        | some root => some (root, bound + 1)
        | none => deepest? n bound

/-- `n` as a power with the largest exponent up to 64, or as `n ^ 1`. -/
def asPower (n : Nat) : Nat × Nat :=
  (deepest? n (min (bitLength n) 64)).getD (n, 1)

/-- Repeats `asPower` on the base, multiplying the exponents together. -/
def reduce (n exponent : Nat) : Nat × Nat :=
  let (base, inner) := asPower n
  if inner = 1 then (n, exponent)
  else if base < n then reduce base (exponent * inner)
  else (n, exponent)
termination_by n

/-- `n` as a power of the smallest possible base. -/
def perfectPower (n : Nat) : Nat × Nat := reduce n 1

end ExactAlgebra.Root
