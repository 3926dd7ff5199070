import ExactAlgebra.Number.Root
import Mathlib

/-!
# Exact roots and perfect powers

An exact root gives the radicand back, and so do the base and exponent of a
perfect power.  The base that `perfectPower` finds is not reduced any further.
-/

namespace ExactAlgebra.Root

theorem pow_of_exactRoot? {radicand degree root : Nat} (hdegree : degree ≠ 0)
    (h : exactRoot? radicand degree = some root) : root ^ degree = radicand := by
  unfold exactRoot? at h
  split at h
  next htrivial =>
    simp only [Option.some.injEq] at h
    subst root
    rcases htrivial with hsmall | rfl
    · interval_cases radicand
      · exact zero_pow hdegree
      · exact one_pow degree
    · exact pow_one radicand
  next =>
    simp only [Option.ite_none_right_eq_some, Option.some.injEq] at h
    rw [← h.2]
    exact h.1

theorem pow_of_deepest? {n bound base exponent : Nat}
    (h : deepest? n bound = some (base, exponent)) : base ^ exponent = n ∧ 1 < exponent := by
  induction bound with
  | zero => simp [deepest?] at h
  | succ bound ih =>
      rw [deepest?] at h
      split at h
      next => contradiction
      next hbound =>
        cases hroot : exactRoot? n (bound + 1) with
        | none =>
            rw [hroot] at h
            exact ih h
        | some root =>
            simp only [hroot, Option.some.injEq, Prod.mk.injEq] at h
            obtain ⟨rfl, rfl⟩ := h
            exact ⟨pow_of_exactRoot? (by omega) hroot, by omega⟩

theorem asPower_pow (n : Nat) : (asPower n).1 ^ (asPower n).2 = n := by
  unfold asPower
  cases h : deepest? n (min (bitLength n) 64) with
  | none => simp
  | some found => exact (pow_of_deepest? h).1

theorem asPower_snd_pos (n : Nat) : 0 < (asPower n).2 := by
  unfold asPower
  cases h : deepest? n (min (bitLength n) 64) with
  | none => simp
  | some found =>
      have := (pow_of_deepest? h).2
      simp only [Option.getD_some]
      omega

theorem one_lt_asPower_fst {n : Nat} (hn : 1 < n) : 1 < (asPower n).1 := by
  have hpow := asPower_pow n
  by_contra hle
  have hbase : (asPower n).1 = 0 ∨ (asPower n).1 = 1 := by omega
  rcases hbase with hbase | hbase
  · rw [hbase, zero_pow (asPower_snd_pos n).ne'] at hpow
    omega
  · rw [hbase, one_pow] at hpow
    omega

theorem asPower_fst_lt {n : Nat} (hn : 1 < n) (h : (asPower n).2 ≠ 1) : (asPower n).1 < n := by
  have hexponent : 1 < (asPower n).2 := by
    have := asPower_snd_pos n
    omega
  calc (asPower n).1 = (asPower n).1 ^ 1 := (pow_one _).symm
    _ < (asPower n).1 ^ (asPower n).2 := Nat.pow_lt_pow_right (one_lt_asPower_fst hn) hexponent
    _ = n := asPower_pow n

/-! ## The smallest base -/

theorem reduce_eq (n exponent : Nat) :
    reduce n exponent =
      if (asPower n).2 = 1 then (n, exponent)
      else if (asPower n).1 < n then reduce (asPower n).1 (exponent * (asPower n).2)
      else (n, exponent) := by
  rw [reduce]

theorem reduce_pow (n exponent : Nat) :
    (reduce n exponent).1 ^ (reduce n exponent).2 = n ^ exponent := by
  induction n using Nat.strong_induction_on generalizing exponent with
  | h n ih =>
      rw [reduce_eq]
      split
      next => rfl
      next =>
        split
        next hlt => rw [ih _ hlt, mul_comm, pow_mul, asPower_pow]
        next => rfl

theorem one_lt_reduce_fst {n : Nat} (exponent : Nat) (hn : 1 < n) :
    1 < (reduce n exponent).1 := by
  induction n using Nat.strong_induction_on generalizing exponent with
  | h n ih =>
      rw [reduce_eq]
      split
      next => exact hn
      next =>
        split
        next hlt => exact ih _ hlt _ (one_lt_asPower_fst hn)
        next => exact hn

theorem asPower_reduce {n : Nat} (exponent : Nat) (hn : 1 < n) :
    (asPower (reduce n exponent).1).2 = 1 := by
  induction n using Nat.strong_induction_on generalizing exponent with
  | h n ih =>
      rw [reduce_eq]
      split
      next hone => exact hone
      next hne =>
        have hlt := asPower_fst_lt hn hne
        rw [if_pos hlt]
        exact ih _ hlt _ (one_lt_asPower_fst hn)

theorem perfectPower_pow (n : Nat) : (perfectPower n).1 ^ (perfectPower n).2 = n := by
  rw [perfectPower, reduce_pow, pow_one]

theorem one_lt_perfectPower_fst {n : Nat} (hn : 1 < n) : 1 < (perfectPower n).1 :=
  one_lt_reduce_fst 1 hn

/-- The base of a perfect power is no perfect power. -/
theorem perfectPower_perfectPower {n : Nat} (hn : 1 < n) :
    perfectPower (perfectPower n).1 = ((perfectPower n).1, 1) := by
  rw [perfectPower, reduce_eq]
  exact if_pos (asPower_reduce 1 hn)

end ExactAlgebra.Root
