import ExactAlgebra.Number.Factor
import ExactAlgebra.Proofs.Number.Root
import Mathlib

/-!
# What trial division finds

The factors of a number ascend and multiply to it, and each of them is a prime or
has no small prime factor.  All but the last are primes up to the limit.
-/

namespace ExactAlgebra.Factor

/-- Every prime factor is at least `bound`. -/
def Rough (bound n : Nat) : Prop := ∀ p, p.Prime → p ∣ n → bound ≤ p

/-- A prime, or a number all of whose prime factors exceed the limit. -/
def Whole (limit q : Nat) : Prop := q.Prime ∨ Rough (limit + 1) q

theorem Rough.of_dvd {bound m n : Nat} (h : Rough bound n) (hdvd : m ∣ n) : Rough bound m :=
  fun p hp hpm => h p hp (hpm.trans hdvd)

theorem Rough.le {bound n : Nat} (h : Rough bound n) (hn : 1 < n) : bound ≤ n := by
  have hne : n ≠ 1 := by omega
  exact (h n.minFac (Nat.minFac_prime hne) n.minFac_dvd).trans (Nat.minFac_le (by omega))

/-- A rough number below the square of its bound is a prime. -/
theorem Rough.prime {bound n : Nat} (h : Rough bound n) (hn : 1 < n)
    (hlt : n < bound * bound) : n.Prime := by
  by_contra hprime
  have hne : n ≠ 1 := by omega
  have hsquare := Nat.minFac_sq_le_self (by omega) hprime
  have hbound := h n.minFac (Nat.minFac_prime hne) n.minFac_dvd
  nlinarith

theorem Rough.prime_of_dvd {bound n : Nat} (h : Rough bound n) (hbound : 1 < bound)
    (hdvd : bound ∣ n) : bound.Prime :=
  (h.of_dvd hdvd).prime hbound (by nlinarith)

/-! ## Stripping a divisor -/

theorem strip_spec {divisor n : Nat} (hdivisor : 1 < divisor) (hn : 0 < n) :
    divisor ^ (strip divisor n).1 * (strip divisor n).2 = n ∧
      ¬ divisor ∣ (strip divisor n).2 := by
  induction n using Nat.strong_induction_on with
  | h n ih =>
      rw [strip]
      split
      next h =>
        obtain ⟨quotient, rfl⟩ := Nat.dvd_of_mod_eq_zero h.2.2
        have hquotient : 0 < quotient := Nat.pos_of_mul_pos_left hn
        rw [Nat.mul_div_cancel_left quotient (by omega)]
        have hlt : quotient < divisor * quotient := by nlinarith
        obtain ⟨hprod, hdvd⟩ := ih quotient hlt hquotient
        refine ⟨?_, hdvd⟩
        change divisor ^ ((strip divisor quotient).1 + 1) * (strip divisor quotient).2 = _
        rw [pow_succ, mul_right_comm, hprod, mul_comm]
      next h =>
        refine ⟨by simp, fun hdvd => h ⟨hdivisor, hn, Nat.mod_eq_zero_of_dvd hdvd⟩⟩

theorem strip_count_pos {divisor n : Nat} (hdivisor : 1 < divisor) (hn : 0 < n)
    (hcount : (strip divisor n).1 ≠ 0) : divisor ∣ n := by
  have hprod := (strip_spec hdivisor hn).1
  rw [← hprod]
  exact (dvd_pow_self divisor hcount).mul_right _

theorem strip_rest_dvd {divisor n : Nat} (hdivisor : 1 < divisor) (hn : 0 < n) :
    (strip divisor n).2 ∣ n := by
  have hprod := (strip_spec hdivisor hn).1
  exact ⟨_, (mul_comm _ _).trans hprod |>.symm⟩

theorem strip_rest_pos {divisor n : Nat} (hdivisor : 1 < divisor) (hn : 0 < n) :
    0 < (strip divisor n).2 :=
  Nat.pos_of_dvd_of_pos (strip_rest_dvd hdivisor hn) hn

/-! ## Divisors in turn -/

/-- Two or an odd number. -/
def IsTrial (divisor : Nat) : Prop := divisor = 2 ∨ (2 < divisor ∧ divisor % 2 = 1)

theorem IsTrial.one_lt {divisor : Nat} (h : IsTrial divisor) : 1 < divisor := by
  rcases h with rfl | h <;> omega

theorem IsTrial.next {divisor : Nat} (h : IsTrial divisor) : IsTrial (nextDivisor divisor) := by
  unfold nextDivisor IsTrial
  rcases h with rfl | h
  · simp
  · split <;> omega

/-- The even numbers that are skipped are no primes. -/
theorem Rough.next {divisor n : Nat} (htrial : IsTrial divisor) (h : Rough divisor n)
    (hdvd : ¬ divisor ∣ n) : Rough (nextDivisor divisor) n := by
  intro p hp hpn
  have hle := h p hp hpn
  have hne : p ≠ divisor := by
    rintro rfl
    exact hdvd hpn
  unfold nextDivisor
  rcases htrial with rfl | ⟨hlarge, hodd⟩
  · simp only [if_true]
    omega
  · have hpodd : p % 2 = 1 := by
      rcases hp.eq_two_or_odd with rfl | hpodd
      · omega
      · exact hpodd
    split <;> omega

theorem Rough.strip {divisor n : Nat} (htrial : IsTrial divisor) (hn : 0 < n)
    (h : Rough divisor n) : Rough (nextDivisor divisor) (strip divisor n).2 :=
  (h.of_dvd (strip_rest_dvd htrial.one_lt hn)).next htrial (strip_spec htrial.one_lt hn).2

/-! ## The factors -/

/-- The factors from a divisor on: ascending, all but the last primes up to the
limit. -/
structure IsFactorization (limit divisor n : Nat) (factors : List (Nat × Nat)) : Prop where
  prod : (factors.map fun factor => factor.1 ^ factor.2).prod = n
  ascending : factors.Pairwise fun a b => a.1 < b.1
  small : factors.Pairwise fun a _ => a.1.Prime ∧ a.1 ≤ limit
  whole : ∀ factor ∈ factors, Whole limit factor.1
  least : ∀ factor ∈ factors, divisor ≤ factor.1
  two_le : ∀ factor ∈ factors, 2 ≤ factor.1
  count_pos : ∀ factor ∈ factors, 0 < factor.2

/-- Each factor divides the number. -/
theorem IsFactorization.dvd_of_mem {limit divisor n : Nat} {factors : List (Nat × Nat)}
    (h : IsFactorization limit divisor n factors) {factor : Nat × Nat}
    (hfactor : factor ∈ factors) : factor.1 ∣ n := by
  rw [← h.prod]
  exact (dvd_pow_self _ (h.count_pos factor hfactor).ne').trans
    (List.dvd_prod (List.mem_map_of_mem (f := fun factor => factor.1 ^ factor.2) hfactor))

private theorem trial_eq (limit divisor n : Nat) :
    trial limit divisor n =
      if 1 < n ∧ divisor ≤ limit ∧ divisor * divisor ≤ n then
        if (strip divisor n).1 = 0 then trial limit (nextDivisor divisor) (strip divisor n).2
        else (divisor, (strip divisor n).1) ::
          trial limit (nextDivisor divisor) (strip divisor n).2
      else cofactor n := by
  rw [trial]

theorem isFactorization_cofactor {limit divisor n : Nat} (hn : 0 < n) (h : Rough divisor n)
    (hstop : ¬ (1 < n ∧ divisor ≤ limit ∧ divisor * divisor ≤ n)) :
    IsFactorization limit divisor n (cofactor n) := by
  unfold cofactor
  split
  next hone =>
    have hpow := Root.asPower_pow n
    have hbase := Root.one_lt_asPower_fst hone
    have hdvd : (Root.asPower n).1 ∣ n := by
      have := dvd_pow_self (Root.asPower n).1 (Root.asPower_snd_pos n).ne'
      rwa [hpow] at this
    have hwhole : Whole limit (Root.asPower n).1 := by
      by_cases hlimit : divisor ≤ limit
      · have hprime : n.Prime := h.prime hone (by
          by_contra hle
          exact hstop ⟨hone, hlimit, by omega⟩)
        rcases (Nat.dvd_prime hprime).mp hdvd with heq | heq
        · omega
        · exact .inl (heq.symm ▸ hprime)
      · exact .inr fun p hp hpq => by
          have := h p hp (hpq.trans hdvd)
          omega
    exact
      { prod := by simpa using hpow
        ascending := List.pairwise_singleton _ _
        small := List.pairwise_singleton _ _
        whole := List.forall_mem_singleton.mpr hwhole
        least := List.forall_mem_singleton.mpr ((h.of_dvd hdvd).le hbase)
        two_le := List.forall_mem_singleton.mpr hbase
        count_pos := List.forall_mem_singleton.mpr (Root.asPower_snd_pos n) }
  next hone =>
    have : n = 1 := by omega
    subst n
    constructor <;> simp

theorem isFactorization_trial {limit divisor n : Nat} (htrial : IsTrial divisor) (hn : 0 < n)
    (h : Rough divisor n) : IsFactorization limit divisor n (trial limit divisor n) := by
  generalize hmeasure : limit + 1 - divisor = measure
  induction measure using Nat.strong_induction_on generalizing divisor n with
  | h measure ih =>
      rw [trial_eq]
      split
      next hgo =>
        have hlt := lt_nextDivisor divisor
        have hrest := ih _ (by omega) htrial.next (strip_rest_pos htrial.one_lt hn)
          (h.strip htrial hn) rfl
        have hprod := (strip_spec htrial.one_lt hn).1
        split
        next hzero =>
          rw [hzero, pow_zero, one_mul] at hprod
          exact
            { hrest with
              prod := hrest.prod.trans hprod
              least := fun factor hfactor => hlt.le.trans (hrest.least factor hfactor) }
        next hcount =>
          have hprime := h.prime_of_dvd htrial.one_lt
            (strip_count_pos htrial.one_lt hn hcount)
          exact
            { prod := by
                rw [List.map_cons, List.prod_cons, hrest.prod, hprod]
              ascending := List.pairwise_cons.mpr
                ⟨fun factor hfactor => hlt.trans_le (hrest.least factor hfactor),
                  hrest.ascending⟩
              small := List.pairwise_cons.mpr
                ⟨fun _ _ => ⟨hprime, hgo.2.1⟩, hrest.small⟩
              whole := List.forall_mem_cons.mpr ⟨.inl hprime, hrest.whole⟩
              least := List.forall_mem_cons.mpr
                ⟨le_rfl, fun factor hfactor => hlt.le.trans (hrest.least factor hfactor)⟩
              two_le := List.forall_mem_cons.mpr ⟨htrial.one_lt, hrest.two_le⟩
              count_pos := List.forall_mem_cons.mpr
                ⟨Nat.pos_of_ne_zero hcount, hrest.count_pos⟩ }
      next hstop => exact isFactorization_cofactor hn h hstop

theorem isFactorization_factors {limit n : Nat} (hn : 0 < n) :
    IsFactorization limit 2 n (factors limit n) :=
  isFactorization_trial (.inl rfl) hn fun _ hp _ => hp.two_le

end ExactAlgebra.Factor
