import Mathlib.Algebra.MonoidAlgebra.Module
import Mathlib.Data.Finset.Max
import Mathlib.Data.NNRat.Floor
import ExactAlgebra.Proofs.Number.Carry

/-!
# Formal sums of nested powers

The first power of a base may have a value, which is again a formal sum of powers of bases.  If
these bases are simpler by some measure, then formal sums in which all exponents are below one are
told apart by what they are up to these values.
-/

namespace ExactAlgebra.Nested

variable {R ι : Type*} [CommRing R]

/-- Formal sums of products of powers. -/
abbrev Sums (R ι : Type*) [CommRing R] := AddMonoidAlgebra R (ι →₀ ℚ≥0)

variable {values : ι → Sums R ι} {x y : Sums R ι} {i j : ι}

/-! ## Values -/

/-- The first power of a base less its value. -/
noncomputable def relation (values : ι → Sums R ι) (i : ι) : Sums R ι :=
  .single (.single i 1) 1 - values i

/-- Sums that come to nothing. -/
noncomputable def null (values : ι → Sums R ι) : Ideal (Sums R ι) :=
  Ideal.span (Set.range (relation values))

/-- Formal sums up to the values of the bases. -/
abbrev Values (values : ι → Sums R ι) := Sums R ι ⧸ null values

/-- The value of a formal sum. -/
noncomputable def value (values : ι → Sums R ι) : Sums R ι →ₐ[R] Values values :=
  Ideal.Quotient.mkₐ R (null values)

/-- The first power of a base has its value. -/
theorem value_single (values : ι → Sums R ι) (i : ι) :
    value values (.single (.single i 1) 1) = value values (values i) :=
  Ideal.Quotient.eq.mpr (Ideal.subset_span (Set.mem_range_self i))

/-! ## The powers of one base -/

/-- Formal sums in which a base does not occur. -/
noncomputable def avoiding (R : Type*) [CommRing R] (i : ι) : Submodule R (Sums R ι) :=
  AddMonoidAlgebra.supported R R {v | v i = 0}

/-- Formal sums in which all exponents are below one. -/
noncomputable def reduced (R ι : Type*) [CommRing R] : Submodule R (Sums R ι) :=
  AddMonoidAlgebra.supported R R {v | ∀ i, v i < 1}

/-- The exponents with the fractional part of one of them. -/
noncomputable def rest (i : ι) (v : ι →₀ ℚ≥0) : ι →₀ ℚ≥0 := v.update i (v i - ⌊v i⌋₊)

/-- The integral powers of one base become powers of its value. -/
noncomputable def carry (values : ι → Sums R ι) (i : ι) : Sums R ι →ₗ[R] Sums R ι where
  toFun x := Finsupp.linearCombination R
    (fun v => (.single (rest i v) 1 * values i ^ ⌊v i⌋₊ : Sums R ι)) x.coeff
  map_add' x y := by simp
  map_smul' c x := by simp

theorem carry_single (values : ι → Sums R ι) (i : ι) (v : ι →₀ ℚ≥0) (c : R) :
    carry values i (.single v c) = .single (rest i v) c * values i ^ ⌊v i⌋₊ := by
  simp [carry, ← smul_mul_assoc]

theorem rest_of_lt_one {v : ι →₀ ℚ≥0} (h : v i < 1) : rest i v = v ∧ ⌊v i⌋₊ = 0 := by
  have hfloor : ⌊v i⌋₊ = 0 := Nat.floor_eq_zero.mpr h
  rw [rest, hfloor, Nat.cast_zero, tsub_zero, Finsupp.update_self]
  exact ⟨rfl, rfl⟩

theorem carry_of_mem_reduced (values : ι → Sums R ι) (i : ι) (hx : x ∈ reduced R ι) :
    carry values i x = x := by
  refine linearMap_congr (f := carry values i) (g := LinearMap.id) fun v hv => ?_
  obtain ⟨hrest, hfloor⟩ := rest_of_lt_one (hx (Finsupp.mem_support_iff.mpr hv) i)
  rw [carry_single, hrest, hfloor, pow_zero, mul_one, LinearMap.id_apply]

/-- A factor in which the base does not occur stays as it is. -/
theorem carry_mul (values : ι → Sums R ι) (y : Sums R ι) (hx : x ∈ avoiding R i) :
    carry values i (y * x) = carry values i y * x := by
  induction y using AddMonoidAlgebra.induction_linear with
  | zero => rw [zero_mul, map_zero, zero_mul]
  | add y y' hy hy' => rw [add_mul, map_add, map_add, add_mul, hy, hy']
  | single v c =>
      refine linearMap_congr (f := carry values i ∘ₗ LinearMap.mulLeft R (.single v c))
        (g := LinearMap.mulLeft R (carry values i (.single v c))) fun w hw => ?_
      have hzero : w i = 0 := hx (Finsupp.mem_support_iff.mpr hw)
      have hrest : rest i (v + w) = rest i v + w := by
        classical
        ext1 j
        rw [rest, rest, Finsupp.add_apply, Finsupp.add_apply, hzero, add_zero,
          Finsupp.update_apply, Finsupp.update_apply]
        split_ifs with hj
        · rw [hj, hzero, add_zero]
        · rw [Finsupp.add_apply]
      change carry values i (.single v c * .single w _) = carry values i (.single v c) * .single w _
      rw [AddMonoidAlgebra.single_mul_single, carry_single, carry_single, hrest, Finsupp.add_apply,
        hzero, add_zero, mul_right_comm, AddMonoidAlgebra.single_mul_single]

/-- A further power of the base becomes its value. -/
theorem carry_mul_single (values : ι → Sums R ι) (i : ι) (y : Sums R ι) :
    carry values i (y * .single (.single i 1) 1) = carry values i y * values i := by
  induction y using AddMonoidAlgebra.induction_linear with
  | zero => rw [zero_mul, map_zero, zero_mul]
  | add y y' hy hy' => rw [add_mul, map_add, map_add, add_mul, hy, hy']
  | single v c =>
      have hfloor : ⌊v i + 1⌋₊ = ⌊v i⌋₊ + 1 := Nat.floor_add_one zero_le
      have hrest : rest i (v + .single i 1) = rest i v := by
        classical
        ext1 j
        rw [rest, rest, Finsupp.update_apply, Finsupp.update_apply]
        split_ifs with hj
        · rw [Finsupp.add_apply, Finsupp.single_eq_same, hfloor, Nat.cast_add, Nat.cast_one,
            add_tsub_add_eq_tsub_right]
        · rw [Finsupp.add_apply, Finsupp.single_eq_of_ne hj, add_zero]
      rw [AddMonoidAlgebra.single_mul_single, carry_single, carry_single, hrest, Finsupp.add_apply,
        Finsupp.single_eq_same, hfloor, pow_succ, mul_one, mul_assoc]

theorem carry_mul_relation (y : Sums R ι) (hi : values i ∈ avoiding R i) :
    carry values i (y * relation values i) = 0 := by
  rw [relation, mul_sub, map_sub, carry_mul_single, carry_mul values y hi, sub_self]

/-! ## Reduced sums -/

/-- The values of bases are made of simpler bases. -/
def Descends (values : ι → Sums R ι) (level : ι → ℕ) : Prop :=
  ∀ i j, level i ≤ level j → values i ∈ avoiding R j

theorem Descends.relation_mem {level : ι → ℕ} (h : Descends values level) (hij : i ≠ j)
    (hle : level i ≤ level j) : relation values i ∈ avoiding R j := by
  refine Submodule.sub_mem _ (fun v hv => ?_) (h i j hle)
  have hsupport := Finsupp.support_single_subset hv
  rw [Finset.mem_singleton] at hsupport
  rw [hsupport]
  exact Finsupp.single_eq_of_ne hij.symm

theorem sum_eq_zero_of_mem_reduced {level : ι → ℕ} (h : Descends values level) (bases : Finset ι)
    (factors : ι → Sums R ι)
    (hreduced : ∑ i ∈ bases, factors i * relation values i ∈ reduced R ι) :
    ∑ i ∈ bases, factors i * relation values i = 0 := by
  classical
  -- the relation of the base of the highest level goes first, since no other has this base
  induction bases using Finset.induction_on_max_value level generalizing factors with
  | empty => exact Finset.sum_empty
  | insert i bases hi hmax ih =>
      have hcarry : carry values i (∑ j ∈ insert i bases, factors j * relation values j) =
          ∑ j ∈ bases, carry values i (factors j) * relation values j := by
        rw [Finset.sum_insert hi, map_add, carry_mul_relation _ (h i i le_rfl), zero_add, map_sum]
        exact Finset.sum_congr rfl fun j hj =>
          carry_mul values _ (h.relation_mem (fun heq => hi (heq ▸ hj)) (hmax j hj))
      rw [carry_of_mem_reduced values i hreduced] at hcarry
      rw [hcarry] at hreduced ⊢
      exact ih (fun j => carry values i (factors j)) hreduced

/-- No reduced sum comes to nothing but zero. -/
theorem eq_zero_of_mem_null {level : ι → ℕ} (h : Descends values level) (hx : x ∈ reduced R ι)
    (hnull : x ∈ null values) : x = 0 := by
  obtain ⟨factors, rfl⟩ := Finsupp.mem_span_range_iff_exists_finsupp.mp hnull
  exact sum_eq_zero_of_mem_reduced h factors.support factors hx

/-- Reduced sums are told apart by their values. -/
theorem eq_of_value_eq {level : ι → ℕ} (h : Descends values level) (hx : x ∈ reduced R ι)
    (hy : y ∈ reduced R ι) (hvalue : value values x = value values y) : x = y :=
  sub_eq_zero.mp (eq_zero_of_mem_null h (Submodule.sub_mem _ hx hy) (Ideal.Quotient.eq.mp hvalue))

end ExactAlgebra.Nested
