import ExactAlgebra.Number.Strict
import ExactAlgebra.Proofs.Number.Newton
import ExactAlgebra.Proofs.Number.Root

/-!
# The smallest base of a perfect power

The search for a perfect power tries exponents up to 64 and repeats on the base that it finds.
So the base that is left is no power with an exponent up to 64, and it is the smallest one
exactly if the number is no power with a prime exponent beyond 64.
-/

namespace ExactAlgebra.Root

variable {n bound base exponent c j p k : Nat}

/-! ## The search for an exponent -/

theorem le_bitLength (hc : 2 ≤ c) : j ≤ bitLength (c ^ j) := by
  have hlt : 2 ^ j < 2 ^ bitLength (c ^ j) :=
    (Nat.pow_le_pow_left hc j).trans_lt (lt_pow_bitLength _)
  exact ((Nat.pow_lt_pow_iff_right Nat.one_lt_two).mp hlt).le

theorem deepest?_le (h : deepest? n bound = some (base, exponent)) : exponent ≤ bound := by
  induction bound with
  | zero => simp [deepest?] at h
  | succ bound ih =>
      rw [deepest?] at h
      split at h
      next => cases h
      next =>
        split at h
        next =>
          cases h
          rfl
        next => exact (ih h).trans bound.le_succ

/-- An exponent within the bound is not missed. -/
theorem deepest?_pow_ne_none (hj : 2 ≤ j) (hbound : j ≤ bound) : deepest? (c ^ j) bound ≠ none := by
  induction bound with
  | zero => omega
  | succ bound ih =>
      rw [deepest?, if_neg (by omega)]
      by_cases hlast : j = bound + 1
      · rw [← hlast, (exactRoot?_eq_some_iff (by omega)).mpr rfl]
        exact Option.some_ne_none _
      · split
        next => exact Option.some_ne_none _
        next => exact ih (by omega)

theorem asPower_snd_le (n : Nat) : (asPower n).2 ≤ 64 := by
  unfold asPower
  cases h : deepest? n (min (bitLength n) 64) with
  | none => simp
  | some found => exact (deepest?_le h).trans (Nat.min_le_right _ _)

/-- A power with an exponent up to 64 is seen to be one. -/
theorem asPower_pow_ne_one (hc : 2 ≤ c) (hj : 2 ≤ j) (hlimit : j ≤ 64) :
    (asPower (c ^ j)).2 ≠ 1 := by
  unfold asPower
  cases h : deepest? (c ^ j) (min (bitLength (c ^ j)) 64) with
  | none => exact absurd h (deepest?_pow_ne_none hj (le_min (le_bitLength hc) hlimit))
  | some found => exact (pow_of_deepest? h).2.ne'

/-! ## The base that is left -/

theorem pow_ne_perfectPower_fst (hn : 1 < n) (hj : 2 ≤ j) (hlimit : j ≤ 64) :
    c ^ j ≠ (perfectPower n).1 := by
  intro h
  have hbase : 1 < c ^ j := h ▸ one_lt_perfectPower_fst hn
  have hc : 2 ≤ c := by
    by_contra hsmall
    have hle : c ^ j ≤ 1 := Nat.pow_le_one_iff (by omega) |>.mpr (by omega)
    omega
  exact asPower_pow_ne_one hc hj hlimit (h ▸ asPower_reduce 1 hn)

/-- The prime factors of the exponent are among the exponents that are tried. -/
theorem prime_le_of_dvd_reduce (hp : p.Prime) (h : p ∣ (reduce n exponent).2) :
    p ∣ exponent ∨ p ≤ 64 := by
  induction n using Nat.strong_induction_on generalizing exponent with
  | h n ih =>
      rw [reduce_eq] at h
      split at h
      next => exact .inl h
      next =>
        split at h
        next hlt =>
          rcases ih _ hlt h with hdvd | hle
          · rcases hp.dvd_mul.mp hdvd with hdvd | hdvd
            · exact .inl hdvd
            · exact .inr ((Nat.le_of_dvd (asPower_snd_pos n) hdvd).trans (asPower_snd_le n))
          · exact .inr hle
        next => exact .inl h

theorem prime_le_of_dvd_perfectPower (hp : p.Prime) (h : p ∣ (perfectPower n).2) : p ≤ 64 :=
  (prime_le_of_dvd_reduce hp h).resolve_left hp.not_dvd_one

/-! ## Powers of powers -/

/-- If a power is one with a prime exponent that does not divide the other exponent, then so is
the base. -/
theorem exists_pow_eq_of_pow_eq (hbase : base ≠ 0) (hp : p.Prime) (hk : ¬ p ∣ k)
    (h : base ^ k = c ^ p) : ∃ root, root ^ p = base := by
  refine ⟨Nat.floorRoot p base, Nat.eq_of_factorization_eq ?_ hbase fun q => ?_⟩
  · exact pow_ne_zero _ (Nat.floorRoot_ne_zero.mpr ⟨hp.ne_zero, hbase⟩)
  · have hexponents : k * base.factorization q = p * c.factorization q := by
      simpa using congrArg (fun n => n.factorization q) h
    have hdvd : p ∣ base.factorization q :=
      (hp.dvd_mul.mp ⟨_, hexponents⟩).resolve_left hk
    simpa using Nat.mul_div_cancel' hdvd

theorem exists_prime_pow (hj : 2 ≤ j) : ∃ root p, p.Prime ∧ p ∣ j ∧ root ^ p = c ^ j := by
  obtain ⟨p, hp, m, rfl⟩ := Nat.exists_prime_and_dvd (by omega : j ≠ 1)
  exact ⟨c ^ m, p, hp, dvd_mul_right p m, by rw [← pow_mul, mul_comm]⟩

/-- The base is a power exactly if the number is one with a prime exponent beyond 64. -/
theorem exists_pow_eq_perfectPower_fst_iff (hn : 1 < n) :
    (∃ c j, 2 ≤ c ∧ 2 ≤ j ∧ c ^ j = (perfectPower n).1) ↔
      ∃ c p, p.Prime ∧ 64 < p ∧ c ^ p = n := by
  have hpower := perfectPower_pow n
  have hbase := one_lt_perfectPower_fst hn
  constructor
  · rintro ⟨c, j, -, hj, hc⟩
    obtain ⟨root, p, hp, -, hroot⟩ := exists_prime_pow (c := c) hj
    have hlarge : 64 < p := by
      by_contra hsmall
      exact pow_ne_perfectPower_fst hn hp.two_le (by omega) (hroot.trans hc)
    refine ⟨root ^ (perfectPower n).2, p, hp, hlarge, ?_⟩
    rw [← pow_mul, mul_comm, pow_mul, hroot, hc, hpower]
  · rintro ⟨c, p, hp, hlarge, hc⟩
    have hk : ¬ p ∣ (perfectPower n).2 := fun hdvd => by
      have hle := prime_le_of_dvd_perfectPower hp hdvd
      omega
    obtain ⟨root, hroot⟩ := exists_pow_eq_of_pow_eq (by omega) hp hk (hpower.trans hc.symm)
    refine ⟨root, p, ?_, hp.two_le, hroot⟩
    by_contra hsmall
    have hle : root ^ p ≤ 1 := Nat.pow_le_one_iff hp.ne_zero |>.mpr (by omega)
    omega

end ExactAlgebra.Root

namespace ExactAlgebra.Strict

/-! ## Main result -/

/-- A number is the power that is found.  The base is no power with an exponent up to 64, and it
is the smallest possible one unless the number is a power with a prime exponent beyond 64. -/
theorem exists_perfectPower {n : Int} (hn : 2 ≤ n) :
    ∃ base exponent : Nat, perfectPower n = .ok (base, exponent) ∧ (base : Int) ^ exponent = n ∧
      (∀ c j : Nat, 2 ≤ j → j ≤ 64 → c ^ j ≠ base) ∧
      ((∃ c j : Nat, 2 ≤ c ∧ 2 ≤ j ∧ c ^ j = base) ↔
        ∃ c p : Nat, p.Prime ∧ 64 < p ∧ (c : Int) ^ p = n) := by
  obtain ⟨n, rfl⟩ := Int.eq_ofNat_of_zero_le (by omega : 0 ≤ n)
  have hlt : 1 < n := by omega
  refine ⟨(Root.perfectPower n).1, (Root.perfectPower n).2, if_neg (by omega), ?_, ?_, ?_⟩
  · exact_mod_cast Root.perfectPower_pow n
  · exact fun c j hj hlimit => Root.pow_ne_perfectPower_fst hlt hj hlimit
  · have hiff := Root.exists_pow_eq_perfectPower_fst_iff hlt
    exact_mod_cast hiff

theorem exists_perfectPower_cube :
    2 ≤ (1728 : Int) ∧ ∃ base exponent : Nat, perfectPower 1728 = .ok (base, exponent) ∧
      (base : Int) ^ exponent = 1728 ∧ (∀ c j : Nat, 2 ≤ j → j ≤ 64 → c ^ j ≠ base) ∧
      ((∃ c j : Nat, 2 ≤ c ∧ 2 ≤ j ∧ c ^ j = base) ↔
        ∃ c p : Nat, p.Prime ∧ 64 < p ∧ (c : Int) ^ p = 1728) :=
  ⟨by decide, exists_perfectPower (by decide)⟩

/-- The number `2 ^ 67` is left as it is: 67 is a prime beyond the exponents that are tried. -/
theorem perfectPower_two_pow : perfectPower (2 ^ 67) = .ok (2 ^ 67, 1) ∧
    ∃ c j : Nat, 2 ≤ c ∧ 2 ≤ j ∧ c ^ j = 2 ^ 67 :=
  ⟨by decide +kernel, 2, 67, le_rfl, by norm_num, rfl⟩

end ExactAlgebra.Strict
