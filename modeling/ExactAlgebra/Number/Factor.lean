import ExactAlgebra.Number.Root

/-!
# Factoring by bounded trial division

Divisors are two and the odd numbers, up to a limit and to the square root of
what is left.  A cofactor that survives is kept whole, except that a perfect
power is written by its base and exponent.
-/

namespace ExactAlgebra.Factor

/-- The largest trial divisor when no other limit is given. -/
def defaultLimit : Nat := 65536

/-- How often `divisor` divides `n`, and what is left of `n`. -/
def strip (divisor n : Nat) : Nat × Nat :=
  if 1 < divisor ∧ 0 < n ∧ n % divisor = 0 then
    let (count, rest) := strip divisor (n / divisor)
    (count + 1, rest)
  else (0, n)
termination_by n
decreasing_by
  rename_i h
  exact Nat.div_lt_self h.2.1 h.1

/-- The factors of a number that trial division leaves whole. -/
def cofactor (n : Nat) : List (Nat × Nat) :=
  if 1 < n then [Root.asPower n] else []

/-- Two, three, and from there on the odd numbers. -/
def nextDivisor (divisor : Nat) : Nat :=
  if divisor = 2 then 3 else divisor + 2

theorem lt_nextDivisor (divisor : Nat) : divisor < nextDivisor divisor := by
  unfold nextDivisor
  split <;> omega

/-- The factors of `n` that trial division finds from `divisor` on. -/
def trial (limit divisor n : Nat) : List (Nat × Nat) :=
  if 1 < n ∧ divisor ≤ limit ∧ divisor * divisor ≤ n then
    let (count, rest) := strip divisor n
    if count = 0 then trial limit (nextDivisor divisor) rest
    else (divisor, count) :: trial limit (nextDivisor divisor) rest
  else cofactor n
termination_by limit + 1 - divisor
decreasing_by
  all_goals
    have := lt_nextDivisor divisor
    omega

/-- The factors of a positive number in ascending order, with their counts. -/
def factors (limit n : Nat) : List (Nat × Nat) :=
  trial limit 2 n

end ExactAlgebra.Factor
