import ExactAlgebra.Number.Strict
import ExactAlgebra.Proofs.Number.Newton

/-!
# Exact roots of rationals

The guesses of Newton's iteration are positive, and they fall until they reach the integer part
of the root.  A reduced fraction is a power exactly if its numerator and its denominator are, so
the exact root of a rational is found if and only if there is one.
-/

namespace ExactAlgebra

namespace Root

variable {radicand degree guess : Nat}

/-! ## Rounds of the iteration -/

/-- The guesses of Newton's iteration one after the other, from the first one on. -/
def guesses (radicand degree rounds : Nat) : Nat :=
  (step radicand degree)^[rounds] (upperGuess radicand degree)

/-- The iteration ends in the first guess that a step does not decrease. -/
theorem exists_descend_eq (radicand degree guess : Nat) :
    ∃ rounds, descend radicand degree guess = (step radicand degree)^[rounds] guess ∧
      (∀ j < rounds, (step radicand degree)^[j + 1] guess < (step radicand degree)^[j] guess) ∧
      (step radicand degree)^[rounds] guess ≤ (step radicand degree)^[rounds + 1] guess := by
  induction guess using Nat.strong_induction_on with
  | h guess ih =>
      by_cases hlt : step radicand degree guess < guess
      · rcases ih _ hlt with ⟨rounds, hend, hfall, hstop⟩
        refine ⟨rounds + 1, ?_, ?_, hstop⟩
        · rw [descend]
          simp only [hlt, if_true]
          exact hend
        · intro j hj
          cases j with
          | zero => exact hlt
          | succ j => exact hfall j (by omega)
      · refine ⟨0, ?_, ?_, Nat.le_of_not_lt hlt⟩
        · rw [descend]
          simp only [hlt, if_false]
          rfl
        · intro j hj
          omega

/-- A step does not go below one, so no quotient by zero is ever taken. -/
theorem iterate_step_pos (hradicand : 0 < radicand) (hdegree : 0 < degree) (hguess : 0 < guess)
    (rounds : Nat) : 0 < (step radicand degree)^[rounds] guess := by
  induction rounds generalizing guess with
  | zero => exact hguess
  | succ rounds ih =>
      rw [Function.iterate_succ_apply]
      apply ih
      have hone : 1 ^ degree ≤ radicand := by
        rw [one_pow]
        exact hradicand
      exact le_step hdegree hguess hone

theorem guesses_pos (hradicand : 0 < radicand) (hdegree : 0 < degree) (rounds : Nat) :
    0 < guesses radicand degree rounds := by
  apply iterate_step_pos hradicand hdegree
  exact Nat.pow_pos two_pos

/-- The iteration from above does not stop below the integer part of the root. -/
theorem lt_succ_descend_pow (hdegree : 0 < degree) :
    radicand < (descend radicand degree (upperGuess radicand degree) + 1) ^ degree := by
  by_contra hle
  have hpower := Nat.le_of_not_lt hle
  have hupper : descend radicand degree (upperGuess radicand degree) + 1 ≤
      upperGuess radicand degree := by
    apply Nat.le_of_lt
    apply lt_of_pow_lt_pow_left₀ degree (Nat.zero_le _)
    exact hpower.trans_lt (lt_upperGuess_pow hdegree)
  have hdescend := le_descend hdegree hpower hupper
  omega

end Root

/-! ## Roots of fractions -/

namespace Ratio

variable {a r : Rat} {degree : Nat}

theorem toNat_num (ha : 0 ≤ a) : (a.num.toNat : Int) = a.num :=
  Int.toNat_of_nonneg (Rat.num_nonneg.mpr ha)

/-- A fraction is a power if and only if its numerator and its denominator are. -/
theorem pow_eq_iff (ha : 0 ≤ a) (hr : 0 ≤ r) :
    r ^ degree = a ↔ r.num.toNat ^ degree = a.num.toNat ∧ r.den ^ degree = a.den := by
  constructor
  · intro h
    subst h
    constructor
    · zify
      rw [toNat_num hr, toNat_num ha, Rat.num_pow]
    · exact (Rat.den_pow r degree).symm
  · rintro ⟨hnumerator, hdenominator⟩
    apply Rat.ext
    · rw [Rat.num_pow, ← toNat_num hr, ← toNat_num ha, ← hnumerator]
      push_cast
      rfl
    · rw [Rat.den_pow, hdenominator]

/-- The exact root of a rational is its only root that is not negative. -/
theorem root?_eq_some_iff (ha : 0 ≤ a) (hdegree : 0 < degree) :
    root? a degree = some r ↔ 0 ≤ r ∧ r ^ degree = a := by
  simp only [root?, Option.bind_eq_bind, Option.bind_eq_some_iff, Option.some.injEq,
    Root.exactRoot?_eq_some_iff hdegree]
  constructor
  · rintro ⟨numerator, hnumerator, denominator, hdenominator, rfl⟩
    rw [Rat.mkRat_eq_div]
    refine ⟨by positivity, ?_⟩
    calc ((numerator : Int) / denominator : Rat) ^ degree
        = ((numerator ^ degree : Nat) : Rat) / (denominator ^ degree : Nat) := by
          push_cast
          rw [div_pow]
      _ = (a.num : Rat) / a.den := by
          rw [hnumerator, hdenominator, ← toNat_num ha]
          push_cast
          rfl
      _ = a := Rat.num_div_den a
  · rintro ⟨hr, hpower⟩
    rcases (pow_eq_iff ha hr).mp hpower with ⟨hnumerator, hdenominator⟩
    refine ⟨r.num.toNat, hnumerator, r.den, hdenominator, ?_⟩
    rw [toNat_num hr, Rat.mkRat_self]

/-- No root is found if and only if there is none, of either sign. -/
theorem root?_eq_none_iff (ha : 0 ≤ a) (hdegree : 0 < degree) :
    root? a degree = none ↔ ∀ r : Rat, r ^ degree ≠ a := by
  constructor
  · intro hnone r hpower
    have habs : root? a degree = some |r| := by
      apply (root?_eq_some_iff ha hdegree).mpr
      refine ⟨abs_nonneg r, ?_⟩
      rw [← abs_pow, hpower, abs_of_nonneg ha]
    rw [hnone] at habs
    cases habs
  · intro hall
    cases hroot : root? a degree with
    | none => rfl
    | some r => exact absurd ((root?_eq_some_iff ha hdegree).mp hroot).2 (hall r)

end Ratio

/-! ## Main result -/

namespace Strict

open Root

/-- The exact root of a rational is found if and only if there is one.  The iteration behind it
ends for all integers in the integer part of the root, and its guesses are positive. -/
theorem exists_root? :
    (∀ (a : Rat) (degree : Int), 0 ≤ a → 1 ≤ degree → ∃ found, root? a degree = .ok found ∧
      (∀ r, found = some r ↔ 0 ≤ r ∧ r ^ degree = a) ∧
      (found = none ↔ ∀ r : Rat, r ^ degree ≠ a)) ∧
    ∀ radicand degree : Nat, 2 ≤ radicand → 3 ≤ degree → ∃ rounds,
      (∀ j, 0 < guesses radicand degree j) ∧
      (∀ j < rounds, guesses radicand degree (j + 1) < guesses radicand degree j) ∧
      guesses radicand degree rounds ≤ guesses radicand degree (rounds + 1) ∧
      descend radicand degree (upperGuess radicand degree) = guesses radicand degree rounds ∧
      guesses radicand degree rounds ^ degree ≤ radicand ∧
      radicand < (guesses radicand degree rounds + 1) ^ degree := by
  constructor
  · intro a degree ha hdegree
    obtain ⟨degree, rfl⟩ := Int.eq_ofNat_of_zero_le (by omega : 0 ≤ degree)
    have hpos : 0 < degree := by omega
    have hnum : ¬ a.num < 0 := not_lt.mpr (Rat.num_nonneg.mpr ha)
    have hlarge : ¬ (degree : Int) < 1 := by omega
    refine ⟨Ratio.root? a degree, ?_, ?_, ?_⟩
    · rw [root?, if_neg hnum, if_neg hlarge, Int.toNat_natCast]
    · intro r
      rw [zpow_natCast]
      exact Ratio.root?_eq_some_iff ha hpos
    · simp only [zpow_natCast]
      exact Ratio.root?_eq_none_iff ha hpos
  · intro radicand degree hradicand hdegree
    have hpos : 0 < degree := by omega
    rcases exists_descend_eq radicand degree (upperGuess radicand degree) with
      ⟨rounds, hend, hfall, hstop⟩
    refine ⟨rounds, ?_, hfall, hstop, hend, ?_, ?_⟩
    · exact guesses_pos (by omega) hpos
    · rw [guesses, ← hend]
      exact pow_descend_le hpos
    · rw [guesses, ← hend]
      exact lt_succ_descend_pow hpos

theorem exists_root?_two_thirds :
    (∃ found, root? (8 / 27) 3 = .ok found ∧
      (∀ r, found = some r ↔ 0 ≤ r ∧ r ^ (3 : Int) = 8 / 27) ∧
      (found = none ↔ ∀ r : Rat, r ^ (3 : Int) ≠ 8 / 27)) ∧
    ∃ rounds, (∀ j, 0 < guesses 1000 3 j) ∧
      (∀ j < rounds, guesses 1000 3 (j + 1) < guesses 1000 3 j) ∧
      guesses 1000 3 rounds ≤ guesses 1000 3 (rounds + 1) ∧
      descend 1000 3 (upperGuess 1000 3) = guesses 1000 3 rounds ∧
      guesses 1000 3 rounds ^ 3 ≤ 1000 ∧ 1000 < (guesses 1000 3 rounds + 1) ^ 3 :=
  ⟨exists_root?.1 (8 / 27) 3 (by norm_num) (by decide),
    exists_root?.2 1000 3 (by decide) (by decide)⟩

end Strict

end ExactAlgebra
