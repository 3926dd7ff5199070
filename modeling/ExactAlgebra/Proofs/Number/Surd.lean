import ExactAlgebra.Proofs.Number.Carry
import ExactAlgebra.Proofs.Number.Valuation
import Mathlib.Algebra.Order.Floor.Ring
import Mathlib.Data.Rat.Floor

/-!
# Formal sums with surds

A surd is a product of rational powers of minus one and of natural numbers.  Formal sums of
products of other powers with surds are compared up to the value of integral powers: the
integral parts of the exponents go to the coefficient, and what is left determines the sum.
-/

namespace ExactAlgebra.Surd

/-! ## Exponents of surds -/

/-- The number with a given index: minus one stands at zero. -/
def radicand (q : Nat) : Rat := if q = 0 then -1 else q

theorem radicand_ne_zero (q : Nat) : radicand q ≠ 0 := by
  unfold radicand
  split_ifs with hq
  · norm_num
  · exact_mod_cast hq

/-- The value of the integral parts of the exponents. -/
noncomputable def whole (f : Nat →₀ Rat) : Rat := f.prod fun q p => radicand q ^ ⌊p⌋

/-- The fractional parts of the exponents. -/
noncomputable def rest (f : Nat →₀ Rat) : Nat →₀ Rat := f.mapRange Int.fract Int.fract_zero

theorem rest_apply (f : Nat →₀ Rat) (q : Nat) : rest f q = Int.fract (f q) := rfl

theorem rest_add (f g : Nat →₀ Rat) : rest (f + rest g) = rest (f + g) := by
  ext q
  simp only [rest_apply, Finsupp.add_apply]
  rw [← Int.self_sub_floor (g q), ← add_sub_assoc, Int.fract_sub_intCast]

theorem whole_add (f g : Nat →₀ Rat) : whole (f + g) = whole (f + rest g) * whole g :=
  Carry.prod_whole_add (fun q => by rw [Int.floor_zero, zpow_zero]) Int.fract_zero
    (fun q p p' => by
      rw [← zpow_add₀ (radicand_ne_zero q), Int.fract, ← add_sub_assoc, Int.floor_sub_intCast,
        sub_add_cancel]) f g

/-- Exponents between zero and one are kept. -/
theorem parts_of_lt_one {f : Nat →₀ Rat} (h : ∀ q, 0 ≤ f q ∧ f q < 1) :
    rest f = f ∧ whole f = 1 := by
  constructor
  · ext q
    exact Int.fract_eq_self.mpr (h q)
  · exact Finset.prod_eq_one fun q _ => (congrArg (radicand q ^ ·)
      (Int.floor_eq_zero_iff.mpr (Set.mem_Ico.mpr (h q)))).trans (zpow_zero _)

/-! ## Formal sums -/

variable {E : Type*} [AddCommMonoid E]

/-- Rational combinations of products with surds. -/
abbrev Sums (E : Type*) := AddMonoidAlgebra Rat (E × (Nat →₀ Rat))

/-- The integral parts of all surds go to the coefficients. -/
noncomputable def carry (E : Type*) [AddCommMonoid E] : Carry Rat (E × (Nat →₀ Rat)) where
  rest m := (m.1, rest m.2)
  whole m := whole m.2
  rest_add m m' := Prod.ext rfl (rest_add m.2 m'.2)
  whole_add m m' := whole_add m.2 m'.2

/-- Formal sums up to the value of integral powers. -/
abbrev Values (E : Type*) [AddCommMonoid E] := (carry E).Values

/-- The value of a formal sum. -/
noncomputable def value : Sums E →ₐ[Rat] Values E := (carry E).value

theorem reduce_single (m : E × (Nat →₀ Rat)) (c : Rat) :
    (carry E).reduce (.single m c) = .single (m.1, rest m.2) (c * whole m.2) :=
  (carry E).reduce_single m c

theorem value_rest (m : E × (Nat →₀ Rat)) (c : Rat) :
    value (.single (m.1, rest m.2) (c * whole m.2)) = value (.single m c) := by
  rw [← reduce_single]
  exact (carry E).value_reduce _

/-- Integral exponents have a number as value. -/
theorem value_single_add {m : E × (Nat →₀ Rat)} {f : Nat →₀ Rat} (hf : rest f = 0) :
    value (.single (m + (0, f)) 1) = whole f • value (.single m 1) :=
  (carry E).value_single_add (Prod.ext rfl hf)

/-! ## Primes -/

/-- Natural exponents as rational ones. -/
noncomputable def ofNat (f : Nat →₀ Nat) : Nat →₀ Rat := f.mapRange Nat.cast Nat.cast_zero

theorem rest_ofNat (f : Nat →₀ Nat) : rest (ofNat f) = 0 := by
  ext q
  exact Int.fract_natCast (f q)

theorem whole_ofNat_factorization {n : Nat} (hn : n ≠ 0) : whole (ofNat n.factorization) = n := by
  rw [whole, ofNat, Finsupp.prod_mapRange_index fun q => by rw [Int.floor_zero, zpow_zero]]
  calc n.factorization.prod (fun q k => radicand q ^ ⌊(k : Rat)⌋)
      = n.factorization.prod fun q k => ((q ^ k : Nat) : Rat) := by
        refine Finsupp.prod_congr fun q hq => ?_
        have hprime := Nat.prime_of_mem_primeFactors hq
        rw [Int.floor_natCast, zpow_natCast, radicand, if_neg hprime.ne_zero, Nat.cast_pow]
    _ = n := by
        rw [← Nat.cast_finsuppProd, Nat.prod_factorization_pow_eq_self hn]

/-- The exponents of the primes in a rational. -/
noncomputable def valuations (b : Rat) : Nat →₀ Rat :=
  ofNat b.num.natAbs.factorization - ofNat b.den.factorization

theorem valuations_apply (b : Rat) (q : Nat) [hq : Fact q.Prime] :
    valuations b q = padicValRat q b := by
  change ((b.num.natAbs.factorization q : Rat) - (b.den.factorization q : Rat)) = _
  rw [Nat.factorization_def _ hq.out, Nat.factorization_def _ hq.out, padicValRat, padicValInt,
    Int.cast_sub, Int.cast_natCast, Int.cast_natCast]

theorem valuations_of_not_prime (b : Rat) {q : Nat} (hq : ¬ q.Prime) : valuations b q = 0 := by
  change ((b.num.natAbs.factorization q : Rat) - (b.den.factorization q : Rat)) = 0
  rw [Nat.factorization_eq_zero_of_not_prime _ hq, Nat.factorization_eq_zero_of_not_prime _ hq,
    sub_self]

theorem rest_valuations (b : Rat) : rest (valuations b) = 0 := by
  ext q
  change Int.fract ((b.num.natAbs.factorization q : Rat) - (b.den.factorization q : Rat)) = 0
  rw [Int.fract_sub_natCast, Int.fract_natCast]

theorem whole_valuations {b : Rat} (hb : 0 < b) : whole (valuations b) = b := by
  have hnum : b.num.natAbs ≠ 0 := Int.natAbs_ne_zero.mpr (Rat.num_pos.mpr hb).ne'
  have hproduct := whole_add (valuations b) (ofNat b.den.factorization)
  rw [rest_ofNat, add_zero, whole_ofNat_factorization b.den_nz, valuations, sub_add_cancel,
    whole_ofNat_factorization hnum, ← valuations] at hproduct
  have hden : (b.den : Rat) ≠ 0 := Nat.cast_ne_zero.mpr b.den_nz
  rw [← mul_left_inj' hden, ← hproduct, Rat.mul_den_eq_num, ← Int.cast_natCast,
    Int.natAbs_of_nonneg (Rat.num_nonneg.mpr hb.le)]

/-- The exponents of the primes in a product of powers. -/
noncomputable def exponents (roots : List (Rat × Rat)) : Nat →₀ Rat :=
  (roots.map fun root => root.2 • valuations root.1).sum

@[simp] theorem exponents_nil : exponents [] = 0 := rfl

@[simp] theorem exponents_cons (root : Rat × Rat) (roots : List (Rat × Rat)) :
    exponents (root :: roots) = root.2 • valuations root.1 + exponents roots := List.sum_cons

theorem exponents_apply (roots : List (Rat × Rat)) (q : Nat) [Fact q.Prime] :
    exponents roots q = primeExponent q roots := by
  induction roots with
  | nil => rfl
  | cons root rest ih =>
      rw [exponents_cons, Finsupp.add_apply, Finsupp.smul_apply, valuations_apply, ih,
        primeExponent_cons, smul_eq_mul]

theorem exponents_of_not_prime (roots : List (Rat × Rat)) {q : Nat} (hq : ¬ q.Prime) :
    exponents roots q = 0 := by
  induction roots with
  | nil => rfl
  | cons root rest ih =>
      rw [exponents_cons, Finsupp.add_apply, Finsupp.smul_apply, valuations_of_not_prime _ hq,
        smul_zero, ih, add_zero]

theorem exponents_congr {roots roots' : List (Rat × Rat)} (h : ∀ (q : Nat) [Fact q.Prime],
    primeExponent q roots = primeExponent q roots') :
    exponents roots = exponents roots' := by
  ext q
  by_cases hq : q.Prime
  · have : Fact q.Prime := ⟨hq⟩
    rw [exponents_apply, exponents_apply, h q]
  · rw [exponents_of_not_prime _ hq, exponents_of_not_prime _ hq]

end ExactAlgebra.Surd
