import ExactAlgebra.Proofs.Canonical.Separate
import ExactAlgebra.Proofs.Number.Valuation

/-!
# The value of a product of roots

Combining roots of integers moves the exponent of every prime, and loses nothing of it.  This
holds also for bases that trial division leaves whole, where the numbers that stand for primes
may have factors in common.
-/

namespace ExactAlgebra.Reduce

variable {roots : List (Rat × Rat)}

/-- Roots of positive integers combine to the two parts of the exponents of their factors, in
exact and in numeric mode. -/
theorem exists_combineRadicals_whole (mode : Mode) (hroots : ∀ root ∈ roots, IsWhole root.1) :
    ∃ large exponents, IsExponents large exponents ∧
      combineRadicals mode roots = .ok ⟨integralPart exponents,
        (rootsOfGroups (fractionalPart exponents)).map radicalOf, []⟩ ∧
      (∀ (q : Nat) [Fact q.Prime], padicValRat q (integralPart exponents) +
        primeExponent q (rootsOfGroups (fractionalPart exponents)) = primeExponent q roots) ∧
      ((∀ root ∈ roots, IsSmooth root.1) → large = []) := by
  rcases exists_collectExponents_whole hroots with
    ⟨large, exponents, hcollect, hexponents, hvalue, -, hsmooth⟩
  refine ⟨large, exponents, hexponents, ?_, ?_, hsmooth⟩
  · rw [combineRadicals, hcollect]
    simp only [bind, Except.bind, negativeOnePower_zero, map_fractionalPart, one_mul]
    rfl
  · intro q _
    rw [primeExponent_parts q hexponents.two_le, hvalue q]

/-- Roots of integers above one combine to a positive coefficient and roots of integers above
one with different exponents between zero and one, and every prime keeps its exponent. -/
theorem exists_combineRadicals_conserved (mode : Mode)
    (hroots : ∀ root ∈ roots, root.1.den = 1 ∧ 2 ≤ root.1) :
    ∃ (coefficient : Rat) (combined : List (Rat × Rat)),
      combineRadicals mode roots = .ok ⟨coefficient, combined.map radicalOf, []⟩ ∧
      0 < coefficient ∧
      (∀ root ∈ combined, root.1.den = 1 ∧ 2 ≤ root.1 ∧ 0 < root.2 ∧ root.2 < 1) ∧
      (combined.map Prod.snd).Nodup ∧
      ∀ (q : Nat) [Fact q.Prime],
        padicValRat q coefficient + primeExponent q combined = primeExponent q roots := by
  have hwhole : ∀ root ∈ roots, IsWhole root.1 := by
    intro root hroot
    exact exists_natCast_of_two_le (hroots root hroot).1 (hroots root hroot).2
  rcases exists_combineRadicals_whole mode hwhole with
    ⟨large, exponents, hexponents, hcombine, hvalue, -⟩
  refine ⟨_, _, hcombine, integralPart_pos hexponents.two_le, ?_, ?_, hvalue⟩
  · intro root hroot
    rcases isRadical_of_mem_groupRoots hexponents root hroot with ⟨hradical, hminus⟩
    exact hradical.resolve_right fun hturn => hminus hturn.1
  · rw [rootsOfGroups, List.map_map]
    exact powers_fractionalPart exponents

/-- Two primes beyond the limit of trial division, apart and as the two factors of one base,
which stays whole. -/
theorem exists_combineRadicals_conserved_cofactors :
    (∀ root ∈ [((65537 * 65539 : Rat), (7 / 2 : Rat)), (65537, -1 / 2), (12, 1 / 3)],
      root.1.den = 1 ∧ 2 ≤ root.1) ∧
    ∃ (coefficient : Rat) (combined : List (Rat × Rat)),
      combineRadicals .exact [(65537 * 65539, 7 / 2), (65537, -1 / 2), (12, 1 / 3)] =
        .ok ⟨coefficient, combined.map radicalOf, []⟩ ∧
      0 < coefficient ∧
      (∀ root ∈ combined, root.1.den = 1 ∧ 2 ≤ root.1 ∧ 0 < root.2 ∧ root.2 < 1) ∧
      (combined.map Prod.snd).Nodup ∧
      ∀ (q : Nat) [Fact q.Prime], padicValRat q coefficient + primeExponent q combined =
        primeExponent q [(65537 * 65539, 7 / 2), (65537, -1 / 2), (12, 1 / 3)] := by
  have hroots : ∀ root ∈ [((65537 * 65539 : Rat), (7 / 2 : Rat)), (65537, -1 / 2), (12, 1 / 3)],
      root.1.den = 1 ∧ 2 ≤ root.1 := by
    decide +kernel
  exact ⟨hroots, exists_combineRadicals_conserved _ hroots⟩

end ExactAlgebra.Reduce
