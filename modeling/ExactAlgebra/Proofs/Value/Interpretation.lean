import ExactAlgebra.Proofs.Canonical.Signature

/-!
# Values of rational expressions

An expression of constants, variables, sums and products has a value in every
commutative algebra over the rationals.  An interpretation says which powers of
variables and which negative powers of sums have values, and what they are.
-/

namespace ExactAlgebra

open ExactAlgebra.Expr

/-- Values of powers of variables and of sums in a commutative algebra. -/
structure Interpretation (mode : Mode) (A : Type*) [CommRing A] [Algebra ℚ A] where
  valid : String → ℚ → Prop
  symbol : String → ℚ → A
  /-- Values that may be taken to negative powers. -/
  unit : A → Prop
  raise : A → ℚ → A
  ne_imaginary : ∀ {name p}, valid name p → name ≠ mode.imaginary
  symbol_add : ∀ {name p q}, valid name p → valid name q → p + q ≠ 0 →
    valid name (p + q) ∧ symbol name (p + q) = symbol name p * symbol name q
  symbol_cancel : ∀ {name p q}, valid name p → valid name q → p + q = 0 →
    symbol name p * symbol name q = 1
  symbol_neg : ∀ {name p}, valid name p → unit (symbol name p) → valid name (-p)
  unit_mul : ∀ {x y}, unit (x * y) → unit x ∧ unit y
  raise_one : ∀ x, raise x 1 = x
  raise_neg : ∀ {x}, unit x → ∀ {k : ℕ}, 0 < k → raise x (-k) * x ^ k = 1

namespace Interpretation

variable {mode : Mode} {A : Type*} [CommRing A] [Algebra ℚ A] (I : Interpretation mode A)

mutual

/-- The value of an expression of constants, variables, sums and products. -/
noncomputable def value : Expr → A
  | .number c => algebraMap ℚ A c
  | .symbol c name p => c • I.symbol name p
  | .polynomial c p terms => c • I.raise (sumValue terms) p
  | .product c _ factors => c • productValue factors
  | .composite c p terms => c • I.raise (sumValue terms) p
  | _ => 0

noncomputable def sumValue : List (Key × Expr) → A
  | [] => 0
  | (_, child) :: rest => value child + sumValue rest

noncomputable def productValue : List (Key × Expr) → A
  | [] => 1
  | (_, child) :: rest => value child * productValue rest

end

/-- Expressions of constants, variables, sums and products that have a value. -/
def rules : Discipline where
  constant c := c ≠ 0
  symbol name p := I.valid name p
  call _ _ := False
  exponential _ _ := False
  sum p terms := ∃ k : ℕ, 0 < k ∧ p = -k ∧ I.unit (I.sumValue terms)
  radicals roots := roots = []

theorem rules_hereditary : I.rules.Hereditary where
  constant _ h := h
  nothing := rfl
  sublist hsub h := by
    have hnil : _ = [] := h
    subst hnil
    exact List.sublist_nil.mp hsub

theorem sumValue_eq (slots : Slots) :
    I.sumValue slots = (slots.map fun slot => I.value slot.2).sum := by
  induction slots with
  | nil => rfl
  | cons slot rest ih => rw [sumValue, List.map_cons, List.sum_cons, ih]

theorem productValue_eq (slots : Slots) :
    I.productValue slots = (slots.map fun slot => I.value slot.2).prod := by
  induction slots with
  | nil => rfl
  | cons slot rest ih => rw [productValue, List.map_cons, List.prod_cons, ih]

@[simp] theorem value_number (c : ℚ) : I.value (.number c) = algebraMap ℚ A c := rfl

@[simp] theorem value_symbol (c : ℚ) (name : String) (p : ℚ) :
    I.value (.symbol c name p) = c • I.symbol name p := rfl

@[simp] theorem value_polynomial (c p : ℚ) (terms : Slots) :
    I.value (.polynomial c p terms) = c • I.raise (I.sumValue terms) p := rfl

@[simp] theorem value_product (c p : ℚ) (factors : Slots) :
    I.value (.product c p factors) = c • I.productValue factors := rfl

@[simp] theorem value_composite (c p : ℚ) (terms : Slots) :
    I.value (.composite c p terms) = c • I.raise (I.sumValue terms) p := rfl

/-! ## Coefficients -/

theorem value_withCoeff (c : ℚ) (node : Expr) :
    I.value (node.withCoeff c) = c • I.value (node.withCoeff 1) := by
  cases node <;> simp [withCoeff, value, Algebra.algebraMap_eq_smul_one]

theorem value_eq_smul (node : Expr) :
    I.value node = node.coeff • I.value (node.withCoeff 1) := by
  rw [← value_withCoeff, Expr.withCoeff_coeff]

theorem value_of_isExpandedSum {node : Expr} (h : Canonical I.rules node)
    (hsum : node.isExpandedSum = true) : I.value node = I.sumValue node.slots := by
  have hcoeff := h.coeff_of_isExpandedSum hsum
  cases node <;> simp_all [isExpandedSum, isSum, degreePower, coeff, slots, I.raise_one]

/-! ## Contents -/

/-- The content determines the value but for the coefficient. -/
theorem value_eq_of_content {a b : Expr} (ha : Canonical I.rules a) (hb : Canonical I.rules b)
    (h : a.content = b.content) : I.value (a.withCoeff 1) = I.value (b.withCoeff 1) := by
  induction a using slots_induction generalizing b with
  | step a ih =>
      have hperm := Slots.map_perm (f := I.value) (ha.signatures_perm hb h) (by
        intro slot hslot slot' hslot' hsignature
        rw [value_eq_smul, I.value_eq_smul slot'.2, coeff_eq_of_signature hsignature,
          ih slot hslot (ha.slots slot hslot) (hb.slots slot' hslot')
            (content_eq_of_signature hsignature)])
      have hsum : I.sumValue a.slots = I.sumValue b.slots := by
        rw [sumValue_eq, sumValue_eq, hperm.sum_eq]
      have hproduct : I.productValue a.slots = I.productValue b.slots := by
        rw [productValue_eq, productValue_eq, hperm.prod_eq]
      have hpower := degreePower_eq_of_content h
      have hgroup := group_eq_of_content h
      cases a <;> cases b <;> simp only [group, reduceCtorEq] at hgroup
      case symbol => simp_all [content, Key.tuple, withCoeff]
      all_goals simp_all [withCoeff, slots, degreePower, value]

open Classical in
/-- The value that goes with a content. -/
noncomputable def weight (content : Key) : A :=
  if h : ∃ node, Canonical I.rules node ∧ node.content = content then
    I.value (h.choose.withCoeff 1)
  else 0

theorem weight_content {node : Expr} (h : Canonical I.rules node) :
    I.weight node.content = I.value (node.withCoeff 1) := by
  have hsome : ∃ other, Canonical I.rules other ∧ other.content = node.content := ⟨node, h, rfl⟩
  rw [weight, dif_pos hsome]
  exact I.value_eq_of_content hsome.choose_spec.1 h hsome.choose_spec.2

/-- The value is linear in the coefficients of the terms. -/
theorem value_eq_linear {node : Expr} (h : Canonical I.rules node) :
    I.value node = Finsupp.linearCombination ℚ I.weight node.linear := by
  induction node using slots_induction with
  | step node ih =>
      cases hsum : node.isExpandedSum with
      | false =>
          rw [linear_of_not_isExpandedSum hsum, Finsupp.linearCombination_single,
            I.weight_content h, ← value_eq_smul]
      | true =>
          rw [linear_of_isExpandedSum hsum, I.value_of_isExpandedSum h hsum, sumValue_eq,
            Slots.linear, map_list_sum, List.map_map]
          refine congrArg List.sum (List.map_congr_left fun slot hslot => ?_)
          exact ih slot hslot (h.slots slot hslot)

theorem value_scale (c : ℚ) {node : Expr} (h : Canonical I.rules node) :
    I.value (Reduce.scale c node) = c • I.value node := by
  have hscale := Reduce.canonical_scale_any I.rules_hereditary c h
  rw [I.value_eq_linear hscale, Reduce.linear_scale, map_smul, ← I.value_eq_linear h]

/-! ## Outcomes -/

/-- The outcome is an expression with a given value. -/
def Results (outcome : Except Fault Expr) (x : A) : Prop :=
  ∃ node, outcome = .ok node ∧ Canonical I.rules node ∧ I.value node = x

theorem results_of_totals {outcome : Except Fault Expr} {total : Key →₀ ℚ}
    (h : Reduce.Totals I.rules outcome total) :
    I.Results outcome (Finsupp.linearCombination ℚ I.weight total) := by
  obtain ⟨node, hok, hnode, rfl⟩ := h
  exact ⟨node, hok, hnode, I.value_eq_linear hnode⟩

theorem results_plus {a b : Expr} (ha : Canonical I.rules a) (hb : Canonical I.rules b) :
    I.Results (Reduce.plus a b) (I.value a + I.value b) := by
  rw [I.value_eq_linear ha, I.value_eq_linear hb, ← map_add]
  exact I.results_of_totals (Reduce.totals_plus I.rules_hereditary.constant ha hb)

end Interpretation

end ExactAlgebra
