import ExactAlgebra.Number.Root
import Mathlib

/-!
# Newton's iteration for integer roots

A Newton step from above the integer part of a root does not go below it, and a step that does
not decrease the guess has reached it.  So the iteration ends in the integer part, and
`exactRoot?` finds a root whenever there is one.
-/

namespace ExactAlgebra.Root

variable {radicand degree root guess : Nat}

/-! ## Single steps -/

/-- The tangent to a power at the guess lies below the power. -/
theorem tangent_le (hguess : 0 < guess) (hdegree : 0 < degree) :
    degree * root * guess ^ (degree - 1) ≤ root ^ degree + (degree - 1) * guess ^ degree := by
  obtain ⟨k, rfl⟩ := Nat.exists_eq_add_of_le' hdegree
  have hpos : (0 : Rat) < guess := by exact_mod_cast hguess
  have hratio : (-1 : Rat) ≤ root / guess := by
    have hnonneg : (0 : Rat) ≤ root / guess := by positivity
    linarith
  have hbernoulli := one_add_mul_sub_le_pow hratio (k + 1)
  rw [div_pow, le_div_iff₀ (by positivity)] at hbernoulli
  have hcancel : (root : Rat) / guess * guess ^ (k + 1) = root * guess ^ k := by
    rw [pow_succ]
    field_simp
  have htangent : ((k + 1 : Nat) : Rat) * root * guess ^ k ≤
      root ^ (k + 1) + k * guess ^ (k + 1) := by
    calc ((k + 1 : Nat) : Rat) * root * guess ^ k
        = (k + 1 : Nat) * (root / guess * guess ^ (k + 1)) := by rw [hcancel, mul_assoc]
      _ = (1 + (k + 1 : Nat) * (root / guess - 1)) * guess ^ (k + 1) + k * guess ^ (k + 1) := by
          push_cast
          ring
      _ ≤ root ^ (k + 1) + k * guess ^ (k + 1) := by linarith
  simpa using (by exact_mod_cast htangent :
    (k + 1) * root * guess ^ k ≤ root ^ (k + 1) + k * guess ^ (k + 1))

/-- A step stays above all numbers whose power is at most the radicand. -/
theorem le_step (hdegree : 0 < degree) (hguess : 0 < guess) (h : root ^ degree ≤ radicand) :
    root ≤ step radicand degree guess := by
  rw [step, Nat.le_div_iff_mul_le hdegree, mul_comm root]
  by_contra hlt
  have hrest : degree * root - (degree - 1) * guess ≤ radicand / guess ^ (degree - 1) := by
    rw [Nat.le_div_iff_mul_le (by positivity), Nat.sub_mul]
    have hpower : (degree - 1) * guess * guess ^ (degree - 1) =
        (degree - 1) * guess ^ degree := by
      rw [mul_assoc, mul_pow_sub_one hdegree.ne']
    have htangent : degree * root * guess ^ (degree - 1) ≤
        root ^ degree + (degree - 1) * guess ^ degree := tangent_le hguess hdegree
    omega
  simp only [Nat.pow_eq] at hlt
  omega

/-- A guess that a step does not decrease is not too large. -/
theorem pow_le_of_le_step (hdegree : 0 < degree) (h : guess ≤ step radicand degree guess) :
    guess ^ degree ≤ radicand := by
  rcases guess.eq_zero_or_pos with rfl | hguess
  · rw [zero_pow hdegree.ne']
    exact radicand.zero_le
  · rw [step, Nat.le_div_iff_mul_le hdegree, Nat.pow_eq] at h
    have hsplit : guess * degree = (degree - 1) * guess + guess := by
      conv_lhs => rw [← Nat.sub_add_cancel hdegree]
      ring
    have hquotient : guess ≤ radicand / guess ^ (degree - 1) := by omega
    rw [Nat.le_div_iff_mul_le (by positivity), mul_pow_sub_one hdegree.ne'] at hquotient
    exact hquotient

/-! ## The iteration -/

theorem pow_descend_le (hdegree : 0 < degree) :
    descend radicand degree guess ^ degree ≤ radicand := by
  induction guess using Nat.strong_induction_on with
  | h guess ih =>
      rw [descend]
      split
      next hlt => exact ih _ hlt
      next hstop => exact pow_le_of_le_step hdegree (Nat.le_of_not_lt hstop)

theorem le_descend (hdegree : 0 < degree) (h : root ^ degree ≤ radicand) (hguess : root ≤ guess) :
    root ≤ descend radicand degree guess := by
  induction guess using Nat.strong_induction_on with
  | h guess ih =>
      rw [descend]
      split
      next hlt => exact ih _ hlt (le_step hdegree (Nat.zero_lt_of_lt hlt) h)
      next => exact hguess

/-! ## The first guess -/

theorem lt_pow_bitLength (n : Nat) : n < 2 ^ bitLength n := by
  unfold bitLength
  split
  next hzero => simp [hzero]
  next => exact Nat.lt_log2_self

theorem lt_upperGuess_pow (hdegree : 0 < degree) :
    radicand < upperGuess radicand degree ^ degree := by
  have hbits : bitLength radicand ≤ (bitLength radicand + degree - 1) / degree * degree := by
    have hdiv := Nat.div_add_mod' (bitLength radicand + degree - 1) degree
    have hmod := Nat.mod_lt (bitLength radicand + degree - 1) hdegree
    omega
  calc radicand < 2 ^ bitLength radicand := lt_pow_bitLength radicand
    _ ≤ 2 ^ ((bitLength radicand + degree - 1) / degree * degree) :=
        Nat.pow_le_pow_right two_pos hbits
    _ = upperGuess radicand degree ^ degree := pow_mul _ _ _

/-! ## Exact roots -/

/-- An exact root is found if and only if there is one. -/
theorem exactRoot?_eq_some_iff (hdegree : 0 < degree) :
    exactRoot? radicand degree = some root ↔ root ^ degree = radicand := by
  unfold exactRoot?
  split
  next htrivial =>
    rw [Option.some.injEq]
    rcases htrivial with hsmall | rfl
    · interval_cases radicand
      · rw [eq_comm, pow_eq_zero_iff hdegree.ne']
      · rw [eq_comm, Nat.pow_eq_one, or_iff_left hdegree.ne']
    · rw [pow_one, eq_comm]
  next =>
    have hle : descend radicand degree (upperGuess radicand degree) ^ degree ≤ radicand :=
      pow_descend_le hdegree
    dsimp only
    constructor
    · intro h
      split at h
      next hpower => exact Option.some.inj h ▸ hpower
      next => cases h
    · intro h
      have hguess : root ≤ upperGuess radicand degree := by
        refine Nat.le_of_lt ((Nat.pow_lt_pow_iff_left hdegree.ne').mp ?_)
        exact h ▸ lt_upperGuess_pow hdegree
      have hroot := le_descend hdegree h.le hguess
      have heq : descend radicand degree (upperGuess radicand degree) = root :=
        le_antisymm ((Nat.pow_le_pow_iff_left hdegree.ne').mp (h ▸ hle)) hroot
      rw [heq, Nat.pow_eq, if_pos h]

end ExactAlgebra.Root
