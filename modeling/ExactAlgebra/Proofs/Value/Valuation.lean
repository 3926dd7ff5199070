import ExactAlgebra.Proofs.Canonical.Step

/-!
# Linear values

A valuation sends the coefficients of canonical expressions linearly to a commutative
algebra.  A product with an expanded sum is the sum of the products with its terms, so the
values of products are the products of the values as soon as this holds for terms.  Sums
nest at most twice, and the expansion of two sums takes a fixed number of nested calls.
-/

namespace ExactAlgebra

open ExactAlgebra.Expr Reduce

/-! ## Nesting -/

namespace Expr

/-- How deep expanded sums are nested. -/
def nesting (node : Expr) : Nat :=
  if node.isExpandedSum then if node.group = .composite then 2 else 1 else 0

theorem nesting_of_not_isExpandedSum {node : Expr} (h : node.isExpandedSum = false) :
    node.nesting = 0 := by
  simp [nesting, h]

@[simp] theorem nesting_withCoeff (c : Rat) (node : Expr) :
    (node.withCoeff c).nesting = node.nesting := by
  simp [nesting]

theorem nesting_le_two (node : Expr) : node.nesting ≤ 2 := by
  unfold nesting
  split_ifs <;> omega

theorem nesting_pos {node : Expr} (hsum : node.isExpandedSum = true) : 0 < node.nesting := by
  unfold nesting
  rw [if_pos hsum]
  split_ifs <;> omega

end Expr

theorem Canonical.nesting_lt {rules : Discipline} {node : Expr} (h : Canonical rules node)
    (hsum : node.isExpandedSum = true) {slot : Key × Expr} (hslot : slot ∈ node.slots) :
    slot.2.nesting < node.nesting := by
  cases h <;> simp [isExpandedSum, isSum, degreePower] at hsum
  case polynomial coeff power terms _ _ hslots _ =>
    subst hsum
    have hnode : (Expr.polynomial coeff 1 terms).nesting = 1 := rfl
    rw [hnode, nesting_of_not_isExpandedSum
      (not_isExpandedSum_of_isPowered (hslots.powered slot hslot))]
    exact Nat.zero_lt_one
  case composite coeff power terms _ _ hslots _ =>
    subst hsum
    have hnode : (Expr.composite coeff 1 terms).nesting = 2 := rfl
    have hflat := hslots.flat slot hslot
    rw [hnode]
    cases hchild : slot.2.isExpandedSum with
    | false => simp [nesting, hchild]
    | true =>
        have hgroup : slot.2.group ≠ .composite := fun hgroup =>
          hflat ⟨hgroup, (isExpandedSum_iff.mp hchild).2⟩
        simp [nesting, hchild, hgroup]

/-- The coefficient apart. -/
theorem Canonical.linear_eq_smul {rules : Discipline} {node : Expr} (h : Canonical rules node) :
    node.linear = node.coeff • (node.withCoeff 1).linear := by
  cases hsum : node.isExpandedSum with
  | true =>
      have hcoeff := h.coeff_of_isExpandedSum hsum
      rw [withCoeff_of_coeff_eq hcoeff, hcoeff, one_smul]
  | false =>
      rw [linear_of_not_isExpandedSum hsum,
        linear_of_not_isExpandedSum (by rwa [isExpandedSum_withCoeff]), content_withCoeff,
        coeff_withCoeff, Finsupp.smul_single, smul_eq_mul, mul_one]

/-! ## Distribution -/

namespace Reduce

variable {mode : Mode} {a : Expr}

/-- A product with a sum is expanded over its terms.  A sum with an exponent is taken for one
without if the other operand is no expanded sum. -/
theorem distribute_eq (mode : Mode) (fuel : Nat) (b : Expr) (hsum : a.isSum = true) :
    (a.isExpandedSum = true → distribute mode (fuel + 1) a b =
      a.slots.children.foldlM (fun total term => do
        plus total (← combineFactors mode fuel term b)) (.number 0)) ∧
    (b.isExpandedSum = false → distribute mode (fuel + 1) b a =
      a.slots.children.foldlM (fun total term => do
        plus total (← combineFactors mode fuel term b)) (.number 0)) := by
  constructor
  · intro ha
    simp only [distribute, ha, if_true]
    cases a <;> first | rfl | cases hsum
  · intro hb
    simp only [distribute, hb, Bool.false_eq_true, if_false]
    cases a <;> first | rfl | cases hsum

end Reduce

/-! ## Valuations -/

/-- A linear map from the coefficients of some canonical expressions to an algebra. -/
structure Valuation (A : Type*) [CommRing A] [Algebra ℚ A] where
  rules : Discipline
  hereditary : rules.Hereditary
  weight : (Key →₀ ℚ) →ₗ[ℚ] A
  weight_constant : weight (.single constantMark 1) = 1

namespace Valuation

variable {A : Type*} [CommRing A] [Algebra ℚ A] (V : Valuation A) {mode : Mode} {fuel : Nat}
  {a b node : Expr} {x y : A}

/-- The value of an expression. -/
noncomputable def value (node : Expr) : A := V.weight node.linear

/-- The outcome is an expression with a given value. -/
def Results (outcome : Except Fault Expr) (x : A) : Prop :=
  ∃ node, outcome = .ok node ∧ Canonical V.rules node ∧ V.value node = x

theorem value_number (c : ℚ) : V.value (.number c) = algebraMap ℚ A c := by
  rw [value, linear_number, ← mul_one c, ← smul_eq_mul, ← Finsupp.smul_single, map_smul,
    V.weight_constant, Algebra.algebraMap_eq_smul_one, smul_eq_mul, mul_one]

theorem value_scale (c : ℚ) (node : Expr) : V.value (scale c node) = c • V.value node := by
  rw [value, linear_scale, map_smul, value]

theorem value_eq_smul (h : Canonical V.rules node) :
    V.value node = node.coeff • V.value (node.withCoeff 1) := by
  rw [value, h.linear_eq_smul, map_smul, value]

theorem value_mul_eq_smul (ha : Canonical V.rules a) (hb : Canonical V.rules b) :
    V.value a * V.value b =
      (a.coeff * b.coeff) • (V.value (a.withCoeff 1) * V.value (b.withCoeff 1)) := by
  rw [V.value_eq_smul ha, V.value_eq_smul hb, smul_mul_smul_comm]

theorem value_of_isExpandedSum (hsum : node.isExpandedSum = true) :
    V.value node = (node.slots.map fun slot => V.value slot.2).sum := by
  rw [value, linear_of_isExpandedSum hsum, Slots.linear, map_list_sum, List.map_map]
  rfl

theorem results_plus (ha : Canonical V.rules a) (hb : Canonical V.rules b) :
    V.Results (plus a b) (V.value a + V.value b) := by
  obtain ⟨node, hok, hnode, hlinear⟩ := totals_plus V.hereditary.constant ha hb
  exact ⟨node, hok, hnode, by rw [value, hlinear, map_add, value, value]⟩

variable {V} in
theorem Results.map_scale {outcome : Except Fault Expr} (c : ℚ) (h : V.Results outcome x) :
    V.Results (outcome.map (scale c)) (c • x) := by
  obtain ⟨node, rfl, hnode, rfl⟩ := h
  exact ⟨_, rfl, canonical_scale_any V.hereditary c hnode, V.value_scale c node⟩

/-! ## Products with sums -/

/-- A sum collects the products with its terms. -/
theorem results_foldlM {terms : Slots} {product : Expr → Except Fault Expr}
    (hproduct : ∀ slot ∈ terms, V.Results (product slot.2) (V.value slot.2 * x))
    (hstart : Canonical V.rules a) (hvalue : V.value a = y) :
    V.Results (terms.children.foldlM (fun total term => do plus total (← product term)) a)
      (y + (terms.map fun slot => V.value slot.2).sum * x) := by
  induction terms generalizing a y with
  | nil => exact ⟨a, rfl, hstart, by rw [List.map_nil, List.sum_nil, zero_mul, add_zero, hvalue]⟩
  | cons slot rest ih =>
      obtain ⟨summand, hok, hsummand, hx⟩ := hproduct slot List.mem_cons_self
      obtain ⟨total, hplus, htotal, hsum⟩ := V.results_plus hstart hsummand
      have hrest := ih (fun slot hslot => hproduct slot (List.mem_cons_of_mem _ hslot)) htotal hsum
      rw [hvalue, hx, add_assoc, ← add_mul] at hrest
      simpa only [Slots.children, List.map_cons, List.sum_cons, List.foldlM_cons, hok, bind,
        Except.bind, hplus] using hrest

theorem results_distribute (hsum : a.isExpandedSum = true)
    (hterm : ∀ slot ∈ a.slots,
      V.Results (combineFactors mode fuel slot.2 b) (V.value slot.2 * V.value b)) :
    V.Results (distribute mode (fuel + 1) a b) (V.value a * V.value b) ∧
      (b.isExpandedSum = false →
        V.Results (distribute mode (fuel + 1) b a) (V.value a * V.value b)) := by
  obtain ⟨hleft, hright⟩ := distribute_eq mode fuel b (isExpandedSum_iff.mp hsum).1
  have hfold : V.Results (a.slots.children.foldlM (fun total term => do
      plus total (← combineFactors mode fuel term b)) (.number 0))
      (0 + (a.slots.map fun slot => V.value slot.2).sum * V.value b) := by
    refine V.results_foldlM hterm (.number 0) ?_
    rw [value_number, map_zero]
  rw [zero_add, ← V.value_of_isExpandedSum hsum] at hfold
  refine ⟨?_, fun hbsum => ?_⟩
  · rw [hleft hsum]
    exact hfold
  · rw [hright hbsum]
    exact hfold

/-- The terms of an expanded sum times another expression. -/
def Distributes (mode : Mode) (fuel : Nat) (sum other : Expr) : Prop :=
  sum.isExpandedSum = true → ∀ extra, extra ≤ 1 → ∀ slot ∈ sum.slots, V.Results
    (combineFactors mode (fuel + extra) slot.2 other) (V.value slot.2 * V.value other)

theorem results_distribute_either (hsum : a.isExpandedSum = true ∨ b.isExpandedSum = true)
    (hleft : V.Distributes mode fuel a b) (hright : V.Distributes mode fuel b a) {extra : Nat}
    (hextra : extra ≤ 1) :
    V.Results (distribute mode (fuel + extra + 1) a b) (V.value a * V.value b) := by
  cases hasum : a.isExpandedSum with
  | true => exact (V.results_distribute hasum (hleft hasum extra hextra)).1
  | false =>
      have hbsum : b.isExpandedSum = true := by simpa [hasum] using hsum
      rw [mul_comm]
      exact (V.results_distribute hbsum (hright hbsum extra hextra)).2 hasum

theorem results_multiplyContent (hsum : a.isExpandedSum = true ∨ b.isExpandedSum = true)
    (hleft : V.Distributes mode fuel a b) (hright : V.Distributes mode fuel b a) :
    V.Results (multiplyContent mode (fuel + 3) a b) (V.value a * V.value b) := by
  have hdistribute := V.results_distribute_either hsum hleft hright le_rfl
  have hinsert : ∀ total factor, factor.isExpandedSum = true →
      insertFactor mode (fuel + 2) total factor = distribute mode (fuel + 1) total factor := by
    intro total factor hfactor
    rw [insertFactor.eq_def]
    simp only [hfactor, if_true]
  rw [multiplyContent.eq_def]
  dsimp only
  split
  next => simp [isExpandedSum, isSum] at hsum
  next =>
    have hbsum : b.isExpandedSum = true := by simpa [isExpandedSum, isSum] using hsum
    rw [hinsert _ _ hbsum]
    exact V.results_distribute_either hsum hleft hright (Nat.zero_le 1)
  next =>
    have hasum : a.isExpandedSum = true := by simpa [isExpandedSum, isSum] using hsum
    rw [hinsert _ _ hasum, mul_comm]
    exact V.results_distribute_either hsum.symm hright hleft (Nat.zero_le 1)
  next =>
    rw [if_pos (Bool.or_eq_true_iff.mpr hsum)]
    exact hdistribute

theorem results_number (c : ℚ) (hb : Canonical V.rules b) :
    V.Results (combineFactors mode (fuel + 1) (.number c) b) (V.value (.number c) * V.value b) ∧
      V.Results (combineFactors mode (fuel + 1) b (.number c))
        (V.value b * V.value (.number c)) := by
  obtain ⟨hleft, hright⟩ := combineFactors_number mode fuel c b
  rw [hleft, hright, mul_comm (V.value b), and_self]
  refine ⟨_, rfl, canonical_scale_any V.hereditary c hb, ?_⟩
  rw [V.value_scale c, value_number, Algebra.smul_def]

/-- The product of two expressions, from that of their contents in both orders. -/
theorem results_of_content (ha : Canonical V.rules a) (hb : Canonical V.rules b)
    (h : ∀ x y, ((x = a.withCoeff 1 ∧ y = b.withCoeff 1) ∨
        (x = b.withCoeff 1 ∧ y = a.withCoeff 1)) →
      V.Results (multiplyContent mode fuel x y) (V.value x * V.value y)) :
    V.Results (combineFactors mode (fuel + 1) a b) (V.value a * V.value b) := by
  cases hanumber : a.isNumber with
  | true =>
      obtain ⟨c, rfl⟩ : ∃ c, a = .number c := by cases a <;> simp_all [isNumber]
      exact (V.results_number c hb).1
  | false =>
  cases hbnumber : b.isNumber with
  | true =>
      obtain ⟨c, rfl⟩ : ∃ c, b = .number c := by cases b <;> simp_all [isNumber]
      exact (V.results_number c ha).2
  | false =>
      obtain ⟨x, y, hxy, hstep⟩ := combineFactors_eq_map mode hanumber hbnumber
      rw [hstep, V.value_mul_eq_smul ha hb]
      refine Results.map_scale _ ?_
      rcases hxy with ⟨rfl, rfl⟩ | ⟨rfl, rfl⟩
      · exact h _ _ (.inl ⟨rfl, rfl⟩)
      · rw [mul_comm]
        exact h _ _ (.inr ⟨rfl, rfl⟩)

/-! ## Products -/

/-- Operands that multiply as their values do, provided that terms do so. -/
structure Multiplies (mode : Mode) (R : Expr → Expr → Prop) : Prop where
  symm : ∀ {a b}, R a b → R b a
  canonical : ∀ {a b}, R a b → Canonical V.rules a
  withCoeff_one : ∀ {a b}, R a b → R (a.withCoeff 1) b
  slots : ∀ {a b}, R a b → a.isExpandedSum = true → ∀ slot ∈ a.slots, R slot.2 b
  term : ∀ {a b}, R a b → a.isExpandedSum = false → b.isExpandedSum = false →
    ∀ fuel, V.Results (combineFactors mode (fuel + 9) a b) (V.value a * V.value b)

namespace Multiplies

variable {V} {R : Expr → Expr → Prop}

/-- The product of two expressions, within a depth of calls that grows with the nesting
of their sums only. -/
theorem results_of_nesting (hR : V.Multiplies mode R) (n : Nat) (h : R a b)
    (hn : a.nesting + b.nesting ≤ n) :
    V.Results (combineFactors mode (fuel + 4 * n + 9) a b) (V.value a * V.value b) := by
  induction n generalizing fuel a b with
  | zero =>
      have hterm : ∀ node : Expr, node.nesting = 0 → node.isExpandedSum = false := by
        intro node hnode
        by_contra hsum
        have := nesting_pos (Bool.not_eq_false _ ▸ hsum)
        omega
      exact hR.term h (hterm a (by omega)) (hterm b (by omega)) fuel
  | succ n ih =>
      by_cases hsum : a.isExpandedSum = true ∨ b.isExpandedSum = true
      · have hdistributes : ∀ x y, R x y → x.nesting + y.nesting ≤ n + 1 →
            V.Distributes mode (fuel + 4 * n + 9) x y := by
          intro x y hxy hle hxsum extra _ slot hslot
          have hlt := (hR.canonical hxy).nesting_lt hxsum hslot
          have hfuel : fuel + 4 * n + 9 + extra = fuel + extra + 4 * n + 9 := by omega
          rw [hfuel]
          exact ih (hR.slots hxy hxsum slot hslot) (by omega)
        have hcontents : ∀ x y, R x y → (x.isExpandedSum = true ∨ y.isExpandedSum = true) →
            x.nesting + y.nesting ≤ n + 1 →
            V.Results (multiplyContent mode (fuel + 4 * n + 12) x y) (V.value x * V.value y) := by
          intro x y hxy hxysum hle
          exact V.results_multiplyContent hxysum (hdistributes x y hxy hle)
            (hdistributes y x (hR.symm hxy) (by omega))
        have hone : R (a.withCoeff 1) (b.withCoeff 1) :=
          hR.symm (hR.withCoeff_one (hR.symm (hR.withCoeff_one h)))
        refine V.results_of_content (hR.canonical h) (hR.canonical (hR.symm h)) fun x y hxy => ?_
        rcases hxy with ⟨rfl, rfl⟩ | ⟨rfl, rfl⟩
        · refine hcontents _ _ hone ?_ ?_
          · simpa using hsum
          · simpa using hn
        · refine hcontents _ _ (hR.symm hone) ?_ ?_
          · simpa using hsum.symm
          · simpa [add_comm] using hn
      · obtain ⟨hasum, hbsum⟩ := not_or.mp hsum
        exact hR.term h (Bool.not_eq_true _ ▸ hasum) (Bool.not_eq_true _ ▸ hbsum) _

/-- Multiplication gives a result with the product of the values. -/
theorem results_combineFactors (hR : V.Multiplies mode R) (fuel : Nat) (h : R a b) :
    V.Results (combineFactors mode (fuel + 25) a b) (V.value a * V.value b) :=
  hR.results_of_nesting 4 h (Nat.add_le_add (nesting_le_two a) (nesting_le_two b))

theorem results_distribute (hR : V.Multiplies mode R) (h : R a b)
    (hsum : a.isExpandedSum = true ∨ b.isExpandedSum = true) :
    V.Results (distribute mode (fuel + 26) a b) (V.value a * V.value b) := by
  have hdistributes : ∀ x y, R x y → V.Distributes mode (fuel + 25) x y := by
    intro x y hxy hxsum extra _ slot hslot
    have hfuel : fuel + 25 + extra = fuel + extra + 25 := by omega
    rw [hfuel]
    exact hR.results_combineFactors (fuel + extra) (hR.slots hxy hxsum slot hslot)
  exact V.results_distribute_either hsum (hdistributes a b h) (hdistributes b a (hR.symm h))
    (Nat.zero_le 1)

/-! ## Powers of sums -/

theorem results_expandPower (hR : V.Multiplies mode R) (hbase : Canonical V.rules a)
    (hsum : a.isExpandedSum = true)
    (hpowers : ∀ node (k : ℕ), Canonical V.rules node → V.value node = V.value a ^ k → R node a)
    {n : ℕ} (hn : 0 < n) :
    V.Results (expandPower mode (fuel + 27) a n) (V.value a ^ n) := by
  rw [expandPower.eq_def]
  dsimp only
  obtain ⟨k, rfl⟩ := Nat.exists_eq_succ_of_ne_zero hn.ne'
  rw [Nat.succ_eq_add_one, Nat.add_sub_cancel]
  have hfold : ∀ (steps : List ℕ) (start : Expr) (k : ℕ), Canonical V.rules start →
      V.value start = V.value a ^ k →
      V.Results (steps.foldlM (fun result _ => distribute mode (fuel + 26) result a) start)
        (V.value a ^ (k + steps.length)) := by
    intro steps
    induction steps with
    | nil => exact fun start k hstart hvalue => ⟨start, rfl, hstart, hvalue⟩
    | cons step rest ih =>
        intro start k hstart hvalue
        have hstep : V.Results (distribute mode (fuel + 26) start a) _ :=
          hR.results_distribute (hpowers start k hstart hvalue) (.inr hsum)
        obtain ⟨next, hok, hnext, hnextvalue⟩ := hstep
        have hrest := ih next (k + 1) hnext (by rw [hnextvalue, hvalue, pow_succ])
        rw [add_right_comm, add_assoc] at hrest
        simpa only [List.foldlM_cons, hok, bind, Except.bind, List.length_cons] using hrest
  have hpower := hfold (List.range k) a 1 hbase (pow_one _).symm
  rwa [List.length_range, Nat.add_comm 1 k] at hpower

theorem results_raiseBase_natCast (hR : V.Multiplies mode R) (hbase : Canonical V.rules a)
    (hsum : a.isExpandedSum = true)
    (hpowers : ∀ node (k : ℕ), Canonical V.rules node → V.value node = V.value a ^ k → R node a)
    {n : ℕ} (hn : 0 < n) :
    V.Results (raiseBase mode (fuel + 28) a (.rational n)) (V.value a ^ n) := by
  have hzero : (n : ℚ) ≠ 0 := Nat.cast_ne_zero.mpr hn.ne'
  by_cases hone : n = 1
  · subst hone
    refine ⟨a, ?_, hbase, (pow_one _).symm⟩
    rw [raiseBase.eq_def]
    cases a <;> simp [isExpandedSum, isSum] at hsum <;> simp [asNode, asExponent]
  · have hlt : 1 < n := by omega
    have hltcast : (1 : ℚ) < n := by exact_mod_cast hlt
    have hnecast : (n : ℚ) ≠ 1 := by exact_mod_cast hone
    have hfloor : (n : ℚ).floor.toNat = n := by
      have : (n : ℚ).floor = n := by
        rw [← Int.cast_natCast (R := ℚ) n, Rat.floor_intCast]
      rw [this, Int.toNat_natCast]
    have hexpand : V.Results (expandPower mode (fuel + 27) a n) _ :=
      hR.results_expandPower hbase hsum hpowers hn
    obtain ⟨whole, hok, hwhole, hvalue⟩ := hexpand
    refine ⟨whole, ?_, hwhole, hvalue⟩
    rw [raiseBase.eq_def]
    cases a <;> simp [isExpandedSum, isSum] at hsum <;>
      simp [asNode, asExponent, hzero, hone, hltcast, hfloor, hlt, hok, bind, Except.bind, pure,
        Except.pure]

end Multiplies

end Valuation

end ExactAlgebra
