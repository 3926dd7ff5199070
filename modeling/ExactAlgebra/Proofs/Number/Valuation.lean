import ExactAlgebra.Proofs.Number.Exponents
import Mathlib.NumberTheory.Padics.PadicVal.Basic

/-!
# Exponents of primes

The exponent of a prime in a product of powers is the sum of the powers, each times the
valuation of its base.  Factoring the bases, splitting off integral parts and grouping the
rest by exponent leave it as it is.
-/

namespace ExactAlgebra

/-- The exponent of a prime in a product of powers, given by base and exponent. -/
def primeExponent (q : Nat) (roots : List (Rat × Rat)) : Rat :=
  (roots.map fun root => root.2 * (padicValRat q root.1 : Rat)).sum

section

variable (q : Nat) (root : Rat × Rat) (roots roots' : List (Rat × Rat))

@[simp] theorem primeExponent_nil : primeExponent q [] = 0 := rfl

@[simp] theorem primeExponent_cons :
    primeExponent q (root :: roots) = root.2 * padicValRat q root.1 + primeExponent q roots :=
  List.sum_cons

@[simp] theorem primeExponent_append :
    primeExponent q (roots ++ roots') = primeExponent q roots + primeExponent q roots' := by
  simp [primeExponent]

end

theorem padicValRat_ratio_power (q : Nat) [Fact q.Prime] (base : Rat) (n : Int) :
    padicValRat q (Ratio.power base n) = n * padicValRat q base := by
  unfold Ratio.power
  split_ifs with hn
  · rw [padicValRat.pow, Int.toNat_of_nonneg hn]
  · rw [padicValRat.inv, padicValRat.pow, Int.toNat_of_nonneg (by omega)]
    ring

theorem ratio_power_pos {base : Rat} (hbase : 0 < base) (n : Int) : 0 < Ratio.power base n := by
  unfold Ratio.power
  split_ifs
  · exact pow_pos hbase _
  · exact inv_pos.mpr (pow_pos hbase _)

/-- The valuations of a positive rational determine it. -/
theorem eq_of_padicValRat_eq {a b : Rat} (ha : 0 < a) (hb : 0 < b)
    (h : ∀ (q : Nat) [Fact q.Prime], padicValRat q a = padicValRat q b) : a = b := by
  have hnum : ∀ {x : Rat}, 0 < x → x.num.natAbs ≠ 0 := fun hx =>
    Int.natAbs_ne_zero.mpr (Rat.num_pos.mpr hx).ne'
  have hvaluation : ∀ (q : Nat) [Fact q.Prime] {x : Rat}, 0 < x →
      padicValRat q x = padicValNat q x.num.natAbs - padicValNat q x.den := fun q _ x _ => rfl
  have hcross : a.num.natAbs * b.den = b.num.natAbs * a.den := by
    refine (Nat.eq_iff_prime_padicValNat_eq _ _ (mul_ne_zero (hnum ha) b.den_nz)
      (mul_ne_zero (hnum hb) a.den_nz)).mpr fun q hq => ?_
    have : Fact q.Prime := ⟨hq⟩
    have hq := h q
    rw [hvaluation q ha, hvaluation q hb] at hq
    rw [padicValNat.mul (hnum ha) b.den_nz, padicValNat.mul (hnum hb) a.den_nz]
    omega
  rw [Rat.eq_iff_mul_eq_mul]
  have hcast : ∀ {x : Rat}, 0 < x → (x.num.natAbs : Int) = x.num := fun hx =>
    Int.natAbs_of_nonneg (Rat.num_pos.mpr hx).le
  rw [← hcast ha, ← hcast hb]
  exact_mod_cast hcross

namespace Factor

/-- All primes in a number are small. -/
def Smooth (limit n : Nat) : Prop := ∀ q : Nat, q.Prime → q ∣ n → q ≤ limit

theorem Smooth.of_dvd {limit m n : Nat} (h : Smooth limit n) (hdvd : m ∣ n) : Smooth limit m :=
  fun q hq hqm => h q hq (hqm.trans hdvd)

/-- The factors of a smooth number are small primes. -/
theorem Smooth.prime_of_mem {limit n : Nat} (h : Smooth limit n) (hn : 0 < n)
    {factor : Nat × Nat} (hfactor : factor ∈ factors limit n) :
    factor.1.Prime ∧ factor.1 ≤ limit := by
  have hfactors : IsFactorization limit 2 n (factors limit n) := isFactorization_factors hn
  have hsmooth := h.of_dvd (hfactors.dvd_of_mem hfactor)
  rcases hfactors.whole factor hfactor with hprime | hrough
  · exact ⟨hprime, hsmooth _ hprime dvd_rfl⟩
  · have htwo := hfactors.two_le factor hfactor
    have hmin := Nat.minFac_prime (by omega : factor.1 ≠ 1)
    have := hrough _ hmin (Nat.minFac_dvd _)
    have := hsmooth _ hmin (Nat.minFac_dvd _)
    omega

theorem prod_pow_ne_zero {list : List (Nat × Nat)} (h : ∀ factor ∈ list, factor.1 ≠ 0) :
    (list.map fun factor => factor.1 ^ factor.2).prod ≠ 0 := by
  apply List.prod_ne_zero
  intro hzero
  obtain ⟨factor, hfactor, hpower⟩ := List.mem_map.mp hzero
  exact pow_ne_zero _ (h factor hfactor) hpower

/-- The valuation of a number is that of its factors, by their counts. -/
theorem sum_padicValRat_factors {q limit n : Nat} [Fact q.Prime] (hn : 0 < n) :
    ((factors limit n).map fun factor =>
        (factor.2 : Rat) * (padicValRat q (factor.1 : Rat) : Rat)).sum =
      padicValRat q (n : Rat) := by
  have hfactors : IsFactorization limit 2 n (factors limit n) := isFactorization_factors hn
  suffices ∀ list : List (Nat × Nat), (∀ factor ∈ list, 2 ≤ factor.1) →
      (list.map fun factor => (factor.2 : Rat) * (padicValRat q (factor.1 : Rat) : Rat)).sum =
        padicValRat q (((list.map fun factor => factor.1 ^ factor.2).prod : Nat) : Rat) by
    rw [this _ hfactors.two_le, hfactors.prod]
  intro list htwo
  induction list with
  | nil => simp
  | cons factor rest ih =>
      obtain ⟨hfactor, hrest⟩ := List.forall_mem_cons.mp htwo
      have hpower : ((factor.1 : Rat)) ^ factor.2 ≠ 0 := pow_ne_zero _ (by norm_cast; omega)
      have hprod : (((rest.map fun factor => factor.1 ^ factor.2).prod : Nat) : Rat) ≠ 0 := by
        apply Nat.cast_ne_zero.mpr
        apply prod_pow_ne_zero
        intro other hother
        have := hrest other hother
        omega
      rw [List.map_cons, List.sum_cons, ih hrest, List.map_cons, List.prod_cons, Nat.cast_mul,
        Nat.cast_pow, padicValRat.mul hpower hprod, padicValRat.pow]
      push_cast
      ring

end Factor

namespace Reduce

variable {prime : Nat} {power : Rat} {exponents : Exponents} {roots : List (Rat × Rat)}

/-! ## Collecting exponents -/

/-- Exponents of numbers as powers of rationals. -/
def asRoots (exponents : Exponents) : List (Rat × Rat) :=
  exponents.map fun entry => ((entry.1 : Rat), entry.2)

theorem primeExponent_addExponent (q prime : Nat) (power : Rat) (exponents : Exponents) :
    primeExponent q (asRoots (addExponent prime power exponents)) =
      power * padicValRat q (prime : Rat) + primeExponent q (asRoots exponents) := by
  induction exponents with
  | nil => simp [addExponent, asRoots]
  | cons first rest ih =>
      obtain ⟨other, old⟩ := first
      rw [addExponent]
      split_ifs with hlt heq
      · simp [asRoots]
      · subst heq
        simp only [asRoots, List.map_cons, primeExponent_cons]
        ring
      · simp only [asRoots, List.map_cons, primeExponent_cons] at ih ⊢
        rw [ih]
        ring

theorem primeExponent_foldl (q : Nat) (factors : List (Nat × Nat)) (power : Rat)
    (exponents : Exponents) :
    primeExponent q (asRoots (factors.foldl
      (fun exponents factor => addExponent factor.1 (factor.2 * power) exponents) exponents)) =
      power * (factors.map fun factor =>
          (factor.2 : Rat) * (padicValRat q (factor.1 : Rat) : Rat)).sum +
        primeExponent q (asRoots exponents) := by
  induction factors generalizing exponents with
  | nil => simp
  | cons factor rest ih =>
      rw [List.foldl_cons, ih, primeExponent_addExponent, List.map_cons, List.sum_cons]
      ring

theorem primeExponent_addFactors (q : Nat) [Fact q.Prime] {n : Nat} (hn : 1 ≤ n) (power : Rat)
    {exponents' : Exponents} (h : addFactors n power exponents = .ok exponents') :
    primeExponent q (asRoots exponents') =
      power * padicValRat q (n : Rat) + primeExponent q (asRoots exponents) := by
  rw [addFactors_eq hn, Except.ok.injEq] at h
  rw [← h, primeExponent_foldl, Factor.sum_padicValRat_factors hn]

/-- A base above zero that can be factored. -/
def IsWhole (base : Rat) : Prop := ∃ n : Nat, 1 ≤ n ∧ base = n

/-- A base above zero of which all primes are small. -/
def IsSmooth (base : Rat) : Prop :=
  ∃ n : Nat, 1 ≤ n ∧ base = n ∧ Factor.Smooth Factor.defaultLimit n

theorem IsSmooth.isWhole {base : Rat} (h : IsSmooth base) : IsWhole base := by
  obtain ⟨n, hn, hbase, -⟩ := h
  exact ⟨n, hn, hbase⟩

theorem IsWhole.ne_neg_one {base : Rat} (h : IsWhole base) : base ≠ -1 := by
  obtain ⟨n, -, rfl⟩ := h
  have : (0 : Rat) ≤ n := Nat.cast_nonneg n
  linarith

/-- The exponents of whole bases: no number is lost, and those of smooth bases are small
primes. -/
theorem exists_collectExponents_whole (hroots : ∀ root ∈ roots, IsWhole root.1) :
    ∃ large exponents, collectExponents roots = .ok (0, exponents) ∧
      IsExponents large exponents ∧
      (∀ (q : Nat) [Fact q.Prime], primeExponent q (asRoots exponents) = primeExponent q roots) ∧
      large.length ≤ roots.length ∧ ((∀ root ∈ roots, IsSmooth root.1) → large = []) := by
  induction roots using List.reverseRecOn with
  | nil => exact ⟨[], [], rfl, isExponents_nil, fun q _ => rfl, le_rfl, fun _ => rfl⟩
  | append_singleton rest root ih =>
      obtain ⟨base, power⟩ := root
      obtain ⟨hrest, hroot⟩ := List.forall_mem_append.mp hroots
      have hwhole : IsWhole base := hroot _ (List.mem_singleton_self _)
      have hminus := hwhole.ne_neg_one
      obtain ⟨large, exponents, hcollect, hexponents, hvalue, hlength, hsmooth⟩ := ih hrest
      obtain ⟨n, hn, rfl⟩ := hwhole
      obtain ⟨last, exponents', hadd, hexponents'⟩ := hexponents.addFactors hn power
      have hok : collectExponents (rest ++ [((n : Rat), power)]) = .ok (0, exponents') := by
        rw [collectExponents_append, hcollect]
        simp only [bind, Except.bind, if_neg hminus, truncate_natCast, hadd]
        rfl
      have hvalue' : ∀ (q : Nat) [Fact q.Prime],
          primeExponent q (asRoots exponents') =
            primeExponent q (rest ++ [((n : Rat), power)]) := by
        intro q _
        rw [primeExponent_addFactors q hn power hadd, hvalue, primeExponent_append,
          primeExponent_cons, primeExponent_nil]
        ring
      by_cases hall : ∀ root ∈ rest ++ [((n : Rat), power)], IsSmooth root.1
      · obtain ⟨hrestsmooth, hnsmooth⟩ := List.forall_mem_append.mp hall
        obtain ⟨m, -, hm, hmsmooth⟩ : IsSmooth (n : Rat) := hnsmooth _ (List.mem_singleton_self _)
        obtain rfl : n = m := Nat.cast_injective hm
        obtain rfl := hsmooth hrestsmooth
        refine ⟨[], exponents', hok, ?_, hvalue', Nat.zero_le _, fun _ => rfl⟩
        have hfactors : Factor.IsFactorization Factor.defaultLimit 2 n
            (Factor.factors Factor.defaultLimit n) := Factor.isFactorization_factors hn
        rw [addFactors_eq hn, Except.ok.injEq] at hadd
        rw [← hadd]
        exact hexponents.foldl hfactors.two_le hfactors.whole
          fun factor hfactor _ => hmsmooth.prime_of_mem hn hfactor
      · refine ⟨last :: large, exponents', hok, hexponents', hvalue', ?_, fun h => absurd h hall⟩
        rw [List.length_cons, List.length_append, List.length_singleton]
        omega

/-! ## Integral and fractional parts -/

theorem integralPart_append (exponents : Exponents) (entry : Nat × Rat) :
    integralPart (exponents ++ [entry]) =
      integralPart exponents * Ratio.power entry.1 entry.2.floor := by
  rw [integralPart, List.foldl_append]
  rfl

theorem integralPart_pos (h : ∀ entry ∈ exponents, 2 ≤ entry.1) : 0 < integralPart exponents := by
  induction exponents using List.reverseRecOn with
  | nil => exact one_pos
  | append_singleton rest entry ih =>
      obtain ⟨hrest, hentry⟩ := List.forall_mem_append.mp h
      have htwo : 2 ≤ entry.1 := hentry _ (List.mem_singleton_self _)
      rw [integralPart_append]
      exact mul_pos (ih hrest) (ratio_power_pos (by norm_cast; omega) _)

/-- Bases and exponents of some groups. -/
def rootsOfGroups (groups : List (Rat × Nat)) : List (Rat × Rat) :=
  groups.map fun group => ((group.2 : Rat), group.1)

section

variable (q : Nat) [Fact q.Prime]

theorem primeExponent_putRoot {groups : List (Rat × Nat)} (hprime : prime ≠ 0)
    (hgroups : ∀ group ∈ groups, group.2 ≠ 0) :
    primeExponent q (rootsOfGroups (putRoot power prime groups)) =
      primeExponent q (rootsOfGroups groups) + power * padicValRat q (prime : Rat) := by
  induction groups with
  | nil => simp [putRoot, rootsOfGroups]
  | cons first rest ih =>
      obtain ⟨other, base⟩ := first
      obtain ⟨hbase, hrest⟩ := List.forall_mem_cons.mp hgroups
      rw [putRoot]
      split_ifs with heq
      · subst heq
        simp only [rootsOfGroups, List.map_cons, primeExponent_cons, Nat.cast_mul]
        rw [padicValRat.mul (Nat.cast_ne_zero.mpr hbase) (Nat.cast_ne_zero.mpr hprime)]
        push_cast
        ring
      · have hih := ih hrest
        simp only [rootsOfGroups, List.map_cons, primeExponent_cons] at hih ⊢
        rw [hih]
        ring

theorem base_ne_zero (h : ∀ entry ∈ exponents, 2 ≤ entry.1) :
    ∀ group ∈ fractionalPart exponents, group.2 ≠ 0 := by
  rintro ⟨power, base⟩ hgroup
  obtain ⟨-, -, rfl⟩ := mem_fractionalPart.mp hgroup
  refine List.prod_ne_zero fun hzero => ?_
  obtain ⟨x, hx, -⟩ := mem_members.mp hzero
  exact absurd (h _ hx) (by norm_num)

/-- Integral parts and groups together have the exponents that they were made from. -/
theorem primeExponent_parts (h : ∀ entry ∈ exponents, 2 ≤ entry.1) :
    (padicValRat q (integralPart exponents) : Rat) +
        primeExponent q (rootsOfGroups (fractionalPart exponents)) =
      primeExponent q (asRoots exponents) := by
  induction exponents using List.reverseRecOn with
  | nil => simp [integralPart, fractionalPart, rootsOfGroups, asRoots]
  | append_singleton rest entry ih =>
      obtain ⟨hrest, hentry⟩ := List.forall_mem_append.mp h
      have htwo : 2 ≤ entry.1 := hentry _ (List.mem_singleton_self _)
      have hne : (entry.1 : Rat) ≠ 0 := by norm_cast; omega
      have hpart : (padicValRat q (integralPart (rest ++ [entry])) : Rat) =
          padicValRat q (integralPart rest) + entry.2.floor * padicValRat q (entry.1 : Rat) := by
        rw [integralPart_append, padicValRat.mul (integralPart_pos hrest).ne'
          (ratio_power_pos (by norm_cast; omega) _).ne', padicValRat_ratio_power]
        push_cast
        rfl
      have hsplit : entry.2 = entry.2.floor + fraction entry.2 := by
        rw [fraction]
        ring
      have hgroups : primeExponent q (rootsOfGroups (fractionalPart (rest ++ [entry]))) =
          primeExponent q (rootsOfGroups (fractionalPart rest)) +
            fraction entry.2 * padicValRat q (entry.1 : Rat) := by
        rw [fractionalPart_append]
        split_ifs with hzero
        · rw [hzero, zero_mul, add_zero]
        · exact primeExponent_putRoot q (by omega) (base_ne_zero hrest)
      have hwhole : primeExponent q (asRoots (rest ++ [entry])) =
          primeExponent q (asRoots rest) + entry.2 * padicValRat q (entry.1 : Rat) := by
        simp [asRoots]
      rw [hpart, hgroups, hwhole, ← ih hrest]
      conv_rhs => rw [hsplit]
      ring

end

end Reduce

end ExactAlgebra
