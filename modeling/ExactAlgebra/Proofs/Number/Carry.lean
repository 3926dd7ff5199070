import Mathlib.Algebra.MonoidAlgebra.Basic
import Mathlib.Algebra.MonoidAlgebra.Module
import Mathlib.RingTheory.Ideal.Quotient.Operations

/-!
# Formal sums with carries

A part of an exponent may have a value of its own, as the integral part of the exponent of a
root has.  It is carried over to the coefficient, and what is left of the exponents determines
a formal sum up to these values.
-/

namespace ExactAlgebra

/-- Linear maps are equal at a sum if they are at its terms. -/
theorem linearMap_congr {R M S N : Type*} [Semiring R] [Semiring S] [Module S R] [AddCommMonoid N]
    [Module S N] {f g : AddMonoidAlgebra R M →ₗ[S] N} {x : AddMonoidAlgebra R M}
    (h : ∀ m, x.coeff m ≠ 0 → f (.single m (x.coeff m)) = g (.single m (x.coeff m))) :
    f x = g x := by
  rw [← AddMonoidAlgebra.sum_coeff_single x, Finsupp.sum, map_sum, map_sum]
  exact Finset.sum_congr rfl fun m hm => h m (Finsupp.mem_support_iff.mp hm)

/-- The image of a sum is where those of its terms are. -/
theorem linearMap_mem {R M S N σ : Type*} [Semiring R] [Semiring S] [Module S R] [AddCommMonoid N]
    [Module S N] [SetLike σ N] [AddSubmonoidClass σ N] (f : AddMonoidAlgebra R M →ₗ[S] N) {p : σ}
    {x : AddMonoidAlgebra R M} (h : ∀ m, x.coeff m ≠ 0 → f (.single m (x.coeff m)) ∈ p) :
    f x ∈ p := by
  rw [← AddMonoidAlgebra.sum_coeff_single x, Finsupp.sum, map_sum]
  exact sum_mem fun m hm => h m (Finsupp.mem_support_iff.mp hm)

/-- Exponents of which one part is carried over to the coefficients and the rest is left. -/
structure Carry (R M : Type*) [CommRing R] [AddCommMonoid M] where
  rest : M → M
  whole : M → R
  rest_add : ∀ f g, rest (f + rest g) = rest (f + g)
  whole_add : ∀ f g, whole (f + g) = whole (f + rest g) * whole g

namespace Carry

variable {R M : Type*} [CommRing R] [AddCommMonoid M] (C : Carry R M)

/-- All that can be carried over goes to the coefficients. -/
noncomputable def reduce : AddMonoidAlgebra R M →ₗ[R] AddMonoidAlgebra R M where
  toFun x := Finsupp.linearCombination R
    (fun m => (.single (C.rest m) (C.whole m) : AddMonoidAlgebra R M)) x.coeff
  map_add' x y := by simp
  map_smul' c x := by simp

theorem reduce_single (m : M) (c : R) :
    C.reduce (.single m c) = .single (C.rest m) (c * C.whole m) := by
  simp [reduce]

theorem reduce_mul (x y : AddMonoidAlgebra R M) : C.reduce (x * C.reduce y) = C.reduce (x * y) := by
  induction x using AddMonoidAlgebra.induction_linear with
  | zero => simp
  | add x x' hx hx' => rw [add_mul, add_mul, map_add, map_add, hx, hx']
  | single m c =>
      induction y using AddMonoidAlgebra.induction_linear with
      | zero => simp
      | add y y' hy hy' => rw [map_add, mul_add, mul_add, map_add, map_add, hy, hy']
      | single m' c' =>
          simp only [reduce_single, AddMonoidAlgebra.single_mul_single]
          rw [C.rest_add, C.whole_add m m']
          congr 1
          ring

/-- Sums that come to nothing. -/
noncomputable def null : Ideal (AddMonoidAlgebra R M) where
  carrier := {x | C.reduce x = 0}
  add_mem' {x y} hx hy := by
    have hx' : C.reduce x = 0 := hx
    have hy' : C.reduce y = 0 := hy
    rw [Set.mem_ofPred_eq, map_add, hx', hy', add_zero]
  zero_mem' := map_zero _
  smul_mem' x y hy := by
    have hy' : C.reduce y = 0 := hy
    rw [Set.mem_ofPred_eq, smul_eq_mul, ← reduce_mul, hy', mul_zero, map_zero]

/-- Formal sums up to what is carried over. -/
abbrev Values := AddMonoidAlgebra R M ⧸ C.null

/-- The value of a formal sum. -/
noncomputable def value : AddMonoidAlgebra R M →ₐ[R] C.Values := Ideal.Quotient.mkₐ R C.null

/-- What is left of the exponents determines the value. -/
theorem value_eq_iff {x y : AddMonoidAlgebra R M} :
    C.value x = C.value y ↔ C.reduce x = C.reduce y := by
  rw [← sub_eq_zero, ← map_sub, ← sub_eq_zero (a := C.reduce x), ← map_sub]
  exact Ideal.Quotient.eq_zero_iff_mem

theorem value_reduce (x : AddMonoidAlgebra R M) : C.value (C.reduce x) = C.value x := by
  rw [value_eq_iff]
  simpa using C.reduce_mul 1 x

/-- A power of which nothing is left is a coefficient. -/
theorem value_single_add {m f : M} (hf : C.rest f = 0) :
    C.value (.single (m + f) 1) = C.whole f • C.value (.single m 1) := by
  have hconstant : C.value (.single f 1) = algebraMap R C.Values (C.whole f) := by
    rw [← value_reduce, reduce_single, hf, one_mul]
    exact C.value.commutes (C.whole f)
  rw [← one_mul (1 : R), ← AddMonoidAlgebra.single_mul_single, map_mul, hconstant, mul_comm,
    ← Algebra.smul_def, one_mul]

/-! ## Exponents of several bases -/

section

variable {ι P : Type*} [AddCommMonoid P] {whole : ι → P → R} {rest : P → P}

theorem prod_whole_add (hzero : ∀ i, whole i 0 = 1) (hrest : rest 0 = 0)
    (hwhole : ∀ i p q, whole i (p + q) = whole i (p + rest q) * whole i q) (v w : ι →₀ P) :
    (v + w).prod whole = (v + w.mapRange rest hrest).prod whole * w.prod whole := by
  classical
  have hprod : ∀ u : ι →₀ P, u.support ⊆ v.support ∪ w.support →
      u.prod whole = ∏ i ∈ v.support ∪ w.support, whole i (u i) := fun u hu =>
    Finsupp.prod_of_support_subset u hu _ fun i _ => hzero i
  have hsum : ∀ u : ι →₀ P, u.support ⊆ w.support → (v + u).support ⊆ v.support ∪ w.support :=
    fun u hu => Finsupp.support_add.trans (Finset.union_subset_union_right hu)
  rw [hprod _ (hsum w subset_rfl), hprod _ (hsum _ Finsupp.support_mapRange),
    hprod w Finset.subset_union_right, ← Finset.prod_mul_distrib]
  exact Finset.prod_congr rfl fun i _ => hwhole i (v i) (w i)

end

end Carry

end ExactAlgebra
