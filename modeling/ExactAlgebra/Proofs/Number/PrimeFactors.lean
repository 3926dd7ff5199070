import ExactAlgebra.Proofs.Number.Valuation

/-!
# Prime factorizations by trial division

The factors that trial division finds ascend and are coprime to each other, and their powers
multiply to the number.  All but the largest are small primes.  If no prime of the number exceeds
the limit, or the number is below the square of the limit plus one, they are its prime
factorization.
-/

namespace ExactAlgebra

namespace Factor

variable {limit divisor n p k : Nat} {factors : List (Nat × Nat)}

/-! ## Coprime factors -/

/-- A small prime does not divide a larger factor, be that a prime or without small primes. -/
theorem IsFactorization.coprime (h : IsFactorization limit divisor n factors) :
    factors.Pairwise fun a b => a.1.Coprime b.1 := by
  apply List.Pairwise.imp_of_mem _ (h.ascending.and h.small)
  intro a b _ hb hpair
  rcases hpair with ⟨hlt, hprime, hlimit⟩
  apply (Nat.Prime.coprime_iff_not_dvd hprime).mpr
  intro hdvd
  rcases h.whole b hb with hwhole | hrough
  · have heq := (Nat.prime_dvd_prime_iff_eq hprime hwhole).mp hdvd
    omega
  · have hle := hrough a.1 hprime hdvd
    omega

/-- All factors but the last are small primes. -/
theorem IsFactorization.small_of_mem_dropLast (h : IsFactorization limit divisor n factors)
    {factor : Nat × Nat} (hfactor : factor ∈ factors.dropLast) :
    factor.1.Prime ∧ factor.1 ≤ limit := by
  have hne : factors ≠ [] := by
    intro hnil
    rw [hnil] at hfactor
    cases hfactor
  have hsmall := h.small
  rw [← List.dropLast_append_getLast hne] at hsmall
  have hpairs := (List.pairwise_append.mp hsmall).2.2
  exact hpairs factor hfactor (factors.getLast hne) (List.mem_singleton_self _)

/-! ## Numbers without large cofactors -/

/-- A number below the square of the limit plus one has no cofactor but a prime. -/
theorem IsFactorization.prime_of_lt (h : IsFactorization limit divisor n factors) (hn : 0 < n)
    (hlt : n < (limit + 1) * (limit + 1)) {factor : Nat × Nat} (hfactor : factor ∈ factors) :
    factor.1.Prime := by
  rcases h.whole factor hfactor with hprime | hrough
  · exact hprime
  · have hle := Nat.le_of_dvd hn (h.dvd_of_mem hfactor)
    exact hrough.prime (h.two_le factor hfactor) (hle.trans_lt hlt)

/-! ## Multiplicities -/

/-- A prime in a product of powers of primes is one of them. -/
theorem exists_of_dvd_prod (hprime : ∀ factor ∈ factors, factor.1.Prime) (hp : p.Prime)
    (hdvd : p ∣ (factors.map fun factor => factor.1 ^ factor.2).prod) :
    ∃ factor ∈ factors, factor.1 = p := by
  rcases (Prime.dvd_prod_iff hp.prime).mp hdvd with ⟨power, hpower, hdvd⟩
  rcases List.mem_map.mp hpower with ⟨factor, hfactor, rfl⟩
  have hbase := hp.dvd_of_dvd_pow hdvd
  exact ⟨factor, hfactor, ((Nat.prime_dvd_prime_iff_eq hp (hprime factor hfactor)).mp hbase).symm⟩

/-- In a product of powers of different primes, each prime has its exponent as multiplicity. -/
theorem factorization_prod (hprime : ∀ factor ∈ factors, factor.1.Prime)
    (hascending : factors.Pairwise fun a b => a.1 < b.1) (hmem : (p, k) ∈ factors) :
    Nat.factorization (factors.map fun factor => factor.1 ^ factor.2).prod p = k := by
  induction factors with
  | nil => cases hmem
  | cons factor rest ih =>
      rcases List.forall_mem_cons.mp hprime with ⟨hfactor, hrest⟩
      rcases List.pairwise_cons.mp hascending with ⟨hlt, hascending'⟩
      have hpower : factor.1 ^ factor.2 ≠ 0 := pow_ne_zero _ hfactor.ne_zero
      have hprod : (rest.map fun factor => factor.1 ^ factor.2).prod ≠ 0 :=
        prod_pow_ne_zero fun other hother => (hrest other hother).ne_zero
      rw [List.map_cons, List.prod_cons, Nat.factorization_mul hpower hprod, Finsupp.add_apply,
        hfactor.factorization_pow]
      rcases List.mem_cons.mp hmem with rfl | hmem'
      · have hnot : ¬ p ∣ (rest.map fun factor => factor.1 ^ factor.2).prod := by
          intro hdvd
          rcases exists_of_dvd_prod hrest hfactor hdvd with ⟨other, hother, heq⟩
          have := hlt other hother
          omega
        rw [Finsupp.single_eq_same, Nat.factorization_eq_zero_of_not_dvd hnot, add_zero]
      · have hne : factor.1 ≠ p := (hlt (p, k) hmem').ne
        rw [Finsupp.single_eq_of_ne hne.symm, ih hrest hascending' hmem', zero_add]

/-- Factors that are all primes are the prime factorization. -/
theorem IsFactorization.mem_iff (h : IsFactorization limit divisor n factors)
    (hprime : ∀ factor ∈ factors, factor.1.Prime) :
    (p, k) ∈ factors ↔ p.Prime ∧ 0 < k ∧ n.factorization p = k := by
  have hcount : ∀ {k}, (p, k) ∈ factors → n.factorization p = k := by
    intro k hmem
    rw [← h.prod]
    exact factorization_prod hprime h.ascending hmem
  constructor
  · intro hmem
    exact ⟨hprime _ hmem, h.count_pos _ hmem, hcount hmem⟩
  · rintro ⟨hp, hpos, hfactorization⟩
    have hdvd : p ∣ n := Nat.dvd_of_factorization_pos (by omega)
    rw [← h.prod] at hdvd
    rcases exists_of_dvd_prod hprime hp hdvd with ⟨⟨base, count⟩, hmem, rfl⟩
    rwa [← hfactorization, hcount hmem]

end Factor

/-! ## Main result -/

namespace Strict

open Factor

/-- The factors of a positive number under any limit, and the cases in which they are its prime
factorization. -/
theorem exists_factorize {n : Nat} (hn : 1 ≤ n) (limit : Int) :
    ∃ factors, factorize n limit = .ok factors ∧
      (factors.Pairwise fun a b => a.1 < b.1) ∧
      (factors.Pairwise fun a b => a.1.Coprime b.1) ∧
      (factors.map fun factor => factor.1 ^ factor.2).prod = n ∧
      (∀ factor ∈ factors, 2 ≤ factor.1 ∧ 0 < factor.2) ∧
      (∀ factor ∈ factors.dropLast, factor.1.Prime ∧ (factor.1 : Int) ≤ limit) ∧
      (∀ factor ∈ factors.getLast?,
        factor.1.Prime ∨ ∀ p : Nat, p.Prime → p ∣ factor.1 → limit < p) ∧
      ((∀ p : Nat, p.Prime → p ∣ n → (p : Int) ≤ limit) ∨ 2 ≤ limit ∧ (n : Int) < (limit + 1) ^ 2 →
        ∀ p k, (p, k) ∈ factors ↔ p.Prime ∧ 0 < k ∧ n.factorization p = k) := by
  have hfactors : IsFactorization limit.toNat 2 n (factors limit.toNat n) :=
    isFactorization_factors hn
  have hpos : ¬ (n : Int) < 1 := by omega
  refine ⟨factors limit.toNat n, ?_, hfactors.ascending, hfactors.coprime, hfactors.prod, ?_, ?_,
    ?_, ?_⟩
  · rw [factorize, if_neg hpos, Int.toNat_natCast]
  · intro factor hfactor
    exact ⟨hfactors.two_le factor hfactor, hfactors.count_pos factor hfactor⟩
  · intro factor hfactor
    rcases hfactors.small_of_mem_dropLast hfactor with ⟨hprime, hle⟩
    have := hprime.two_le
    exact ⟨hprime, by omega⟩
  · intro factor hfactor
    apply (hfactors.whole factor (List.mem_of_mem_getLast? hfactor)).imp_right
    intro hrough p hp hdvd
    have := hrough p hp hdvd
    omega
  · intro h p k
    apply hfactors.mem_iff
    intro factor hfactor
    rcases h with hsmall | ⟨hlimit, hlt⟩
    · have hsmooth : Smooth limit.toNat n := by
        intro p hp hdvd
        have := hsmall p hp hdvd
        omega
      exact (hsmooth.prime_of_mem hn hfactor).1
    · apply hfactors.prime_of_lt hn _ hfactor
      zify
      rw [Int.toNat_of_nonneg (by omega)]
      linarith [sq (limit + 1)]

theorem exists_factorize_twelve :
    1 ≤ 12 ∧ ∃ factors, factorize (12 : Nat) 3 = .ok factors ∧
      (factors.Pairwise fun a b => a.1 < b.1) ∧
      (factors.Pairwise fun a b => a.1.Coprime b.1) ∧
      (factors.map fun factor => factor.1 ^ factor.2).prod = 12 ∧
      ∀ p k, (p, k) ∈ factors ↔ p.Prime ∧ 0 < k ∧ Nat.factorization 12 p = k := by
  rcases @exists_factorize 12 (by decide) 3 with
    ⟨factors, hfactors, hascending, hcoprime, hprod, -, -, -, hmem⟩
  exact ⟨by decide, factors, hfactors, hascending, hcoprime, hprod,
    hmem (.inr ⟨by decide, by decide⟩)⟩

end Strict

end ExactAlgebra
