import ExactAlgebra.Proofs.Value.Expand

/-!
# Values of integral powers

An integral power of a rational expression is found within a fixed number of nested
calls, and its value is the power of the value.
-/

namespace ExactAlgebra

open ExactAlgebra.Expr

/-! ## Integral powers in a ring -/

/-- `y` is the power of `x` with exponent `m`. -/
def IsIntegralPower {A : Type*} [CommRing A] (x : A) (m : ℤ) (y : A) : Prop :=
  y * x ^ (-m).toNat = x ^ m.toNat

namespace IsIntegralPower

variable {A : Type*} [CommRing A] {x x' y y' : A} {m : ℤ} {k : ℕ}

theorem natCast_iff : IsIntegralPower x k y ↔ y = x ^ k := by
  simp [IsIntegralPower]

theorem neg_natCast_iff : IsIntegralPower x (-k) y ↔ y * x ^ k = 1 := by
  simp [IsIntegralPower]

theorem one : IsIntegralPower (1 : A) m 1 := by
  simp [IsIntegralPower]

theorem zero_exponent : IsIntegralPower x 0 1 := by
  simp [IsIntegralPower]

theorem one_exponent : IsIntegralPower x 1 x := by
  simp [IsIntegralPower]

theorem mul (h : IsIntegralPower x m y) (h' : IsIntegralPower x' m y') :
    IsIntegralPower (x * x') m (y * y') := by
  unfold IsIntegralPower at *
  calc y * y' * (x * x') ^ (-m).toNat = (y * x ^ (-m).toNat) * (y' * x' ^ (-m).toNat) := by ring
    _ = (x * x') ^ m.toNat := by rw [h, h', mul_pow]

theorem unique {z : A} (hy : IsIntegralPower x m y) (hz : IsIntegralPower x m z) : y = z := by
  obtain ⟨k, rfl | rfl⟩ := m.eq_nat_or_neg
  · rw [natCast_iff] at hy hz
    rw [hy, hz]
  · rw [neg_natCast_iff] at hy hz
    exact left_inv_eq_right_inv hy (by rw [mul_comm, hz])

/-- A power of an inverse. -/
theorem of_inverse (hx : x' * x ^ k = 1) (h : IsIntegralPower x (-k * m) y) :
    IsIntegralPower x' m y := by
  obtain ⟨j, rfl | rfl⟩ := m.eq_nat_or_neg
  · have hexponent : -(k : ℤ) * j = -((k * j : ℕ) : ℤ) := by push_cast; ring
    rw [hexponent, neg_natCast_iff] at h
    rw [natCast_iff]
    have hinverse : x ^ (k * j) * x' ^ j = 1 := by
      rw [pow_mul, ← mul_pow, mul_comm, hx, one_pow]
    exact (left_inv_eq_right_inv h hinverse)
  · have hexponent : -(k : ℤ) * -j = ((k * j : ℕ) : ℤ) := by push_cast; ring
    rw [hexponent, natCast_iff] at h
    rw [neg_natCast_iff, h, pow_mul, ← mul_pow, mul_comm (x ^ k), hx, one_pow]

end IsIntegralPower

namespace Interpretation

open Reduce

variable {mode : Mode} {A : Type*} [CommRing A] [Algebra ℚ A] (I : Interpretation mode A)
  {fuel : Nat} {a b base node : Expr} {m : ℤ}

/-! ## Variables -/

theorem symbol_mul_natCast {name : String} {p : ℚ} (hp : p ≠ 0) (hvalid : I.valid name p)
    {k : ℕ} (hk : 0 < k) :
    I.valid name (p * k) ∧ I.symbol name (p * k) = I.symbol name p ^ k := by
  induction k, hk using Nat.le_induction with
  | base => simpa using hvalid
  | succ k hk ih =>
      obtain ⟨hpower, hsymbol⟩ := ih
      have hsplit : p * (k + 1 : ℕ) = p * k + p := by push_cast; ring
      have hne : p * k + p ≠ 0 := by
        rw [← hsplit]
        exact mul_ne_zero hp (Nat.cast_ne_zero.mpr k.succ_ne_zero)
      obtain ⟨hsum, hvalue⟩ := I.symbol_add hpower hvalid hne
      rw [hsplit, hvalue, hsymbol, pow_succ]
      exact ⟨hsum, rfl⟩

theorem symbol_mul_intCast {name : String} {p : ℚ} (hp : p ≠ 0) (hvalid : I.valid name p)
    (hm : m ≠ 0) (hunit : m < 0 → I.unit (I.symbol name p)) :
    I.valid name (p * m) ∧ IsIntegralPower (I.symbol name p) m (I.symbol name (p * m)) := by
  obtain ⟨k, rfl | rfl⟩ := m.eq_nat_or_neg
  · obtain ⟨hpower, hsymbol⟩ := I.symbol_mul_natCast hp hvalid (k := k) (by omega)
    rw [IsIntegralPower.natCast_iff]
    exact ⟨by exact_mod_cast hpower, by exact_mod_cast hsymbol⟩
  · have hneg := I.symbol_neg hvalid (hunit (by omega))
    obtain ⟨hpower, hsymbol⟩ := I.symbol_mul_natCast (neg_ne_zero.mpr hp) hneg (k := k) (by omega)
    have hcast : p * (-(k : ℤ) : ℤ) = -p * k := by push_cast; ring
    rw [IsIntegralPower.neg_natCast_iff, hcast, hsymbol, ← mul_pow,
      I.symbol_cancel hneg hvalid (neg_add_cancel p), one_pow]
    exact ⟨hpower, rfl⟩

/-! ## Sums -/

/-- The outcome is an integral power of a value. -/
def Raises (outcome : Except Fault Expr) (x : A) (m : ℤ) : Prop :=
  ∃ node, outcome = .ok node ∧ Canonical I.rules node ∧ IsIntegralPower x m (I.value node)

variable {I} in
theorem Results.raises {outcome : Except Fault Expr} {x : A} {k : ℕ}
    (h : I.Results outcome (x ^ k)) : I.Raises outcome x k := by
  obtain ⟨node, hok, hnode, hvalue⟩ := h
  exact ⟨node, hok, hnode, IsIntegralPower.natCast_iff.mpr hvalue⟩

theorem results_raiseBase_natCast (hbase : Canonical I.rules base)
    (hsum : base.isExpandedSum = true) {n : ℕ} (hn : 0 < n) :
    I.Results (raiseBase mode (fuel + 28) base (.rational n)) (I.value base ^ n) := by
  rw [← I.valuation_value hbase]
  exact I.results_of_valuation (I.multiplies.results_raiseBase_natCast hbase hsum
    (fun node k hnode _ => ⟨hnode, hbase⟩) hn)

theorem raises_raiseBase_sum (hbase : Canonical I.rules base) (hsum : base.isExpandedSum = true)
    (hm : m ≠ 0) (hunit : m < 0 → I.unit (I.value base)) :
    I.Raises (raiseBase mode (fuel + 28) base (.rational m)) (I.value base) m := by
  obtain ⟨k, rfl | rfl⟩ := m.eq_nat_or_neg
  · have hraise : I.Results (raiseBase mode (fuel + 28) base (.rational k)) _ :=
      I.results_raiseBase_natCast hbase hsum (by omega)
    exact_mod_cast hraise.raises
  · have hk : 0 < k := by omega
    have hneg : (((-(k : ℤ)) : ℤ) : ℚ) = -(k : ℚ) := by push_cast; rfl
    have hu := hunit (by omega)
    rw [hneg, raiseBase_neg hsum (neg_natCast_lt_zero hk)]
    refine ⟨_, rfl, (IsPower.sum hbase hsum hk hu).canonical, ?_⟩
    rw [IsIntegralPower.neg_natCast_iff, I.value_withPower hbase hsum]
    exact I.raise_neg hu hk

/-! ## Terms -/

theorem raises_raiseBase_power (h : I.IsPower node) (hm : m ≠ 0)
    (hunit : m < 0 → I.unit (I.value node)) :
    I.Raises (raiseBase mode (fuel + 28) node.baseOf (.rational (node.degreePower * m)))
      (I.value node) m := by
  cases h with
  | @symbol name p hp hvalid =>
      rw [value_symbol, one_smul] at hunit ⊢
      obtain ⟨hpower, hvalue⟩ := I.symbol_mul_intCast hp hvalid hm hunit
      have hne : p * m ≠ 0 := mul_ne_zero hp (Int.cast_ne_zero.mpr hm)
      refine ⟨_, raiseBase_symbol (I.ne_imaginary hvalid) hne, .symbol one_ne_zero hne hpower, ?_⟩
      rwa [value_symbol, one_smul]
  | @sum base k hbase hsum hk hbaseunit =>
      have hexponent : -(k : ℚ) * m = ((-(k : ℤ) * m : ℤ) : ℚ) := by push_cast; rfl
      have hne : -(k : ℤ) * m ≠ 0 := mul_ne_zero (by omega) hm
      rw [I.baseOf_withPower hbase hsum, degreePower_withPower hsum, hexponent]
      have hraise : I.Raises (raiseBase mode (fuel + 28) base (.rational ((-(k : ℤ) * m : ℤ) : ℚ)))
          (I.value base) (-(k : ℤ) * m) := I.raises_raiseBase_sum hbase hsum hne fun _ => hbaseunit
      obtain ⟨node, hok, hnode, hvalue⟩ := hraise
      refine ⟨node, hok, hnode, hvalue.of_inverse ?_⟩
      rw [I.value_withPower hbase hsum]
      exact I.raise_neg hbaseunit hk

theorem unit_of_productValue {factors : Slots} (h : I.unit (I.productValue factors)) :
    ∀ slot ∈ factors, I.unit (I.value slot.2) := by
  induction factors with
  | nil => simp
  | cons slot rest ih =>
      rw [productValue] at h
      obtain ⟨hslot, hrest⟩ := I.unit_mul h
      exact List.forall_mem_cons.mpr ⟨hslot, ih hrest⟩

theorem raises_raiseFactors {factors : Slots} (hpowers : ∀ slot ∈ factors, I.IsPower slot.2)
    (hm : m ≠ 0) (hunit : m < 0 → I.unit (I.productValue factors)) :
    I.Raises (raiseFactors mode (fuel + 29) 1 factors.children (.rational m))
      (I.productValue factors) m := by
  rw [raiseFactors.eq_def]
  have hfold : ∀ (slots : Slots) (start : Expr) (x : A), (∀ slot ∈ slots, I.IsPower slot.2) →
      (m < 0 → ∀ slot ∈ slots, I.unit (I.value slot.2)) → Canonical I.rules start →
      IsIntegralPower x m (I.value start) →
      I.Raises (slots.children.foldlM (fun result factor => do
        let product ← multiplyPowers mode (fuel + 28) factor.exponent (.rational m)
        let raised ← raiseBase mode (fuel + 28) factor.baseOf product
        combineFactors mode (fuel + 28) result raised) start) (x * I.productValue slots) m := by
    intro slots
    induction slots with
    | nil =>
        intro start x _ _ hstart hvalue
        exact ⟨start, rfl, hstart, by rwa [productValue, mul_one]⟩
    | cons slot rest ih =>
        intro start x hpowers hunits hstart hvalue
        obtain ⟨hpower, hrest⟩ := List.forall_mem_cons.mp hpowers
        have hraise : I.Raises (raiseBase mode (fuel + 28) slot.2.baseOf
            (.rational (slot.2.degreePower * m))) (I.value slot.2) m :=
          I.raises_raiseBase_power hpower hm fun hneg => hunits hneg slot List.mem_cons_self
        obtain ⟨raised, hok, hraised, hraisedvalue⟩ := hraise
        have hcombine : I.Results (combineFactors mode (fuel + 28) start raised) _ :=
          I.results_combineFactors (fuel + 3) hstart hraised
        obtain ⟨total, htotalok, htotal, htotalvalue⟩ := hcombine
        have hproduct := ih total (x * I.value slot.2) hrest
          (fun hneg other hother => hunits hneg other (List.mem_cons_of_mem _ hother)) htotal
          (by rw [htotalvalue]; exact hvalue.mul hraisedvalue)
        rw [productValue, ← mul_assoc]
        simpa only [Slots.children, List.map_cons, List.foldlM_cons, multiplyPowers,
          exponent_of_isPowered hpower.isPowered, hok, htotalok, bind, Except.bind] using hproduct
  have hone : IsIntegralPower (1 : A) m (I.value (.number 1)) := by
    rw [value_number, map_one]
    exact .one
  have hproduct := hfold factors (.number 1) 1 hpowers
    (fun hneg => I.unit_of_productValue (hunit hneg)) (.number 1) hone
  rwa [one_mul] at hproduct

/-! ## Constants -/

theorem ratio_power_natCast (c : ℚ) (k : ℕ) : Ratio.power c k = c ^ k := by
  simp [Ratio.power]

theorem ratio_power_neg_natCast (c : ℚ) {k : ℕ} (hk : 0 < k) :
    Ratio.power c (-k) = (c ^ k)⁻¹ := by
  have hneg : ¬ 0 ≤ -(k : ℤ) := by omega
  rw [Ratio.power, if_neg hneg, neg_neg, Int.toNat_natCast]

theorem isIntegralPower_ratio_power {c : ℚ} (hc : m < 0 → c ≠ 0) :
    IsIntegralPower c m (Ratio.power c m) := by
  obtain ⟨k, rfl | rfl⟩ := m.eq_nat_or_neg
  · rw [IsIntegralPower.natCast_iff, ratio_power_natCast]
  · rcases Nat.eq_zero_or_pos k with rfl | hk
    · simp [IsIntegralPower, Ratio.power]
    · rw [IsIntegralPower.neg_natCast_iff, ratio_power_neg_natCast c hk]
      exact inv_mul_cancel₀ (pow_ne_zero k (hc (by omega)))

theorem IsIntegralPower.algebraMap {c d : ℚ} (h : IsIntegralPower c m d) :
    IsIntegralPower (algebraMap ℚ A c) m (algebraMap ℚ A d) := by
  unfold IsIntegralPower at *
  rw [← map_pow, ← map_mul, h, map_pow]

theorem raises_numberPower {c : ℚ} (hc : m ≤ 0 → c ≠ 0) :
    I.Raises (numberPower mode (fuel + 1) c m) (algebraMap ℚ A c) m := by
  rw [numberPower_intCast hc]
  refine ⟨_, rfl, .number _, ?_⟩
  rw [value_number]
  exact IsIntegralPower.algebraMap (isIntegralPower_ratio_power fun hneg => hc hneg.le)

/-! ## Powers -/

theorem baseOf_withCoeff (hnumber : a.isNumber = false) (c : ℚ) :
    (a.withCoeff c).baseOf = a.baseOf := by
  cases a <;> simp [isNumber] at hnumber <;> rfl

theorem exponent_of_canonical (ha : Canonical I.rules a) :
    a.exponent = .rational a.degreePower := by
  cases ha with
  | constantBase _ _ _ hrules => exact hrules.elim
  | plainBase _ _ hrules => exact hrules.elim
  | _ => rfl

theorem raises_raiseBase_product {factors : Slots} (hslots : IsProduct I.rules factors)
    (hfactors : ∀ slot ∈ factors, Canonical I.rules slot.2) (hm : m ≠ 0)
    (hunit : m < 0 → I.unit (I.productValue factors)) :
    I.Raises (raiseBase mode (fuel + 30) (.product 1 1 factors) (.rational m))
      (I.productValue factors) m := by
  rw [raiseBase.eq_def]
  by_cases hone : m = 1
  · subst hone
    refine ⟨.product 1 1 factors, by simp [asNode, asExponent],
      .product one_ne_zero hslots hfactors, ?_⟩
    rw [value_product, one_smul]
    exact .one_exponent
  · have hmcast : (m : ℚ) ≠ 0 := Int.cast_ne_zero.mpr hm
    have honecast : (m : ℚ) ≠ 1 := by exact_mod_cast hone
    simp only [asNode, asExponent, hmcast, honecast, if_false]
    exact I.raises_raiseFactors (I.isPower_of_mem hslots hfactors) hm hunit

/-- The power of an expression that is no constant, but for the coefficient. -/
theorem raises_raiseBase (ha : Canonical I.rules a) (hnumber : a.isNumber = false) (hm : m ≠ 0)
    (hunit : m < 0 → I.unit (I.value (a.withCoeff 1))) :
    I.Raises (raiseBase mode (fuel + 30) a.baseOf (.rational (a.degreePower * m)))
      (I.value (a.withCoeff 1)) m := by
  rw [← baseOf_withCoeff hnumber 1, ← degreePower_withCoeff (c := 1)]
  cases hsum : a.isExpandedSum with
  | false =>
      rcases I.term_cases ha hsum hnumber with hpower | ⟨factors, hproduct, hslots, hfactors⟩
      · exact I.raises_raiseBase_power hpower hm hunit
      · rw [hproduct] at hunit ⊢
        rw [value_product, one_smul] at hunit ⊢
        simp only [baseOf, withCoeff, withPower, degreePower, one_mul]
        exact I.raises_raiseBase_product hslots hfactors hm hunit
  | true =>
      have hcoeff := ha.coeff_of_isExpandedSum hsum
      have hbase : a.baseOf = a ∧ a.degreePower = 1 := by
        cases a <;> simp_all [isExpandedSum, isSum, baseOf, withCoeff, withPower, degreePower,
          Expr.coeff]
      rw [withCoeff_of_coeff_eq hcoeff] at hunit ⊢
      rw [hbase.1, hbase.2, one_mul]
      exact I.raises_raiseBase_sum ha hsum hm hunit

theorem ne_zero_of_unit [Nontrivial A] {x : A} (h : I.unit x) : x ≠ 0 := by
  rintro rfl
  have hinverse := I.raise_neg h Nat.one_pos
  rw [pow_one, mul_zero] at hinverse
  exact zero_ne_one hinverse

theorem raiseTo_of_not_isNumber (ha : Canonical I.rules a) (hnumber : a.isNumber = false)
    (hm : m ≠ 0) : raiseTo mode (fuel + 2) a (.number m) = (do
      let result ← raiseBase mode (fuel + 1) a.baseOf (.rational (a.degreePower * m))
      if a.coeff = 1 then return result
      else combineFactors mode (fuel + 1) (← numberPower mode (fuel + 1) a.coeff m) result) := by
  have hmcast : (m : ℚ) ≠ 0 := Int.cast_ne_zero.mpr hm
  rw [raiseTo.eq_def]
  cases a <;> simp [isNumber] at hnumber <;>
    simp [hmcast, I.exponent_of_canonical ha, multiplyPowers, bind, Except.bind]

/-- An integral power gives a result with the power of the value. -/
theorem raises_raiseTo [Nontrivial A] (fuel : Nat) (ha : Canonical I.rules a) (m : ℤ)
    (hunit : m < 0 → I.unit (I.value a)) (hzero : m = 0 → I.value a ≠ 0) :
    I.Raises (raiseTo mode (fuel + 31) a (.number m)) (I.value a) m := by
  have hne : m ≤ 0 → I.value a ≠ 0 := by
    intro hle
    rcases hle.lt_or_eq with hneg | hm
    · exact I.ne_zero_of_unit (hunit hneg)
    · exact hzero hm
  cases hnumber : a.isNumber with
  | true =>
      obtain ⟨c, rfl⟩ := eq_number_of_isNumber hnumber
      rw [raiseTo.eq_def, value_number]
      refine I.raises_numberPower fun hle => ?_
      rintro rfl
      exact hne hle (by rw [value_number, map_zero])
  | false =>
      by_cases hm : m = 0
      · subst hm
        refine ⟨.number 1, ?_, .number 1, ?_⟩
        · rw [raiseTo.eq_def]
          cases a <;> simp [isNumber] at hnumber <;> simp
        · rw [value_number, map_one]
          exact .zero_exponent
      · have hcoeff : I.value a = algebraMap ℚ A a.coeff * I.value (a.withCoeff 1) := by
          rw [I.value_eq_smul a, Algebra.smul_def]
        have hraise : I.Raises (raiseBase mode (fuel + 30) a.baseOf
            (.rational (a.degreePower * m))) (I.value (a.withCoeff 1)) m :=
          I.raises_raiseBase ha hnumber hm fun hneg =>
            (I.unit_mul (hcoeff ▸ hunit hneg)).2
        obtain ⟨result, hok, hresult, hvalue⟩ := hraise
        rw [I.raiseTo_of_not_isNumber ha hnumber hm, hok]
        by_cases hone : a.coeff = 1
        · rw [withCoeff_of_coeff_eq hone] at hvalue
          refine ⟨result, ?_, hresult, hvalue⟩
          simp [hone, bind, Except.bind, pure, Except.pure]
        · have hpower : numberPower mode (fuel + 30) a.coeff m = _ :=
            numberPower_intCast fun _ => ha.coeff_ne_zero hnumber
          have hcombine : I.Results (combineFactors mode (fuel + 30)
              (.number (Ratio.power a.coeff m)) result) _ :=
            I.results_combineFactors (fuel + 5) (.number _) hresult
          obtain ⟨node, hnodeok, hnode, hnodevalue⟩ := hcombine
          refine ⟨node, ?_, hnode, ?_⟩
          · simp [hone, hpower, hnodeok, bind, Except.bind]
          · rw [hnodevalue, value_number, hcoeff]
            exact (IsIntegralPower.algebraMap (isIntegralPower_ratio_power fun _ =>
              ha.coeff_ne_zero hnumber)).mul hvalue

end Interpretation

end ExactAlgebra
