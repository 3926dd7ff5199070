import ExactAlgebra.Proofs.Depth.Operations
import ExactAlgebra.Proofs.Value.Union

/-!
# Quotients by zero

If errors are suppressed, a quotient by zero is the product with the unevaluated inverse of
zero.  The inverse is a call, so it joins every term as a factor.  It stays in sight unless
there is no term to join or it meets its own inverse.
-/

namespace ExactAlgebra

open ExactAlgebra.Expr Reduce

namespace Arithmetic

variable {mode : Mode} {a b node term factor : Expr}

/-- The call that stands for the inverse of zero. -/
def inverseOfZero : Expr := unevaluatedPower (.number 0) (.number (-1))

theorem isLoose_inverseOfZero : IsLoose FormalReading.exact inverseOfZero where
  canonical := canonical_unevaluatedPower (.number 0) (.number (-1)) trivial
  isFactor := rfl
  coeff := rfl
  group := by simp [inverseOfZero, unevaluatedPower, Expr.apply, group]

theorem isAtom_inverseOfZero (mode : Mode) : IsAtom mode inverseOfZero.baseOf :=
  .call "pow" [.number 0, .number (-1)]

/-- Constants are determined by their identities. -/
theorem args_eq_of_signatures {args : List Expr} {values : List Rat}
    (h : argsSignatures args = argsSignatures (values.map Expr.number)) :
    args = values.map Expr.number := by
  induction args generalizing values with
  | nil =>
      cases values with
      | nil => rfl
      | cons value values => simp [argsSignatures] at h
  | cons arg args ih =>
      cases values with
      | nil => simp [argsSignatures] at h
      | cons value values =>
          simp only [List.map_cons, argsSignatures, List.cons.injEq, Key.cons.injEq,
            Key.rational.injEq] at h
          obtain ⟨⟨hcoeff, hcontent⟩, hrest⟩ := h
          obtain ⟨value', rfl⟩ := exists_eq_number (isNumber_of_content hcontent)
          obtain rfl : value' = value := hcoeff
          rw [List.map_cons, ih hrest]

/-- The inverse of zero has one form only. -/
theorem eq_inverseOfZero_of_signature (h : b.signature = inverseOfZero.signature) :
    b = inverseOfZero := by
  have hgroup := group_eq_of_content (content_eq_of_signature h)
  cases b <;> simp only [inverseOfZero, unevaluatedPower, Expr.apply, group, reduceCtorEq] at hgroup
  case call coeff name args power =>
    simp only [inverseOfZero, unevaluatedPower, Expr.apply, signature, content, Key.tuple,
      Key.cons.injEq, Key.rational.injEq, Key.name.injEq, Expr.coeff, Key.tuple_inj, true_and,
      and_true] at h
    obtain ⟨rfl, rfl, hargs, rfl⟩ := h
    have hvalues : args = [0, -1].map Expr.number := args_eq_of_signatures hargs
    rw [hvalues]
    rfl

/-- A factor in the slot of the inverse of zero is a power of it. -/
theorem baseOf_eq_inverseOfZero (h : Canonical .proper factor) (hfactor : factor.isFactor = true)
    (hkey : factor.multiplicativeKey = inverseOfZero.multiplicativeKey) :
    factor.baseOf = inverseOfZero := by
  have hnumber := (isFactor_iff.mp hfactor).1
  have hloose : IsLoose FormalReading.exact (factor.withCoeff 1) :=
    isLoose_inverseOfZero.of_multiplicativeKey h.withCoeff_one (by rwa [isFactor_withCoeff])
      (coeff_withCoeff _ _) (by rwa [multiplicativeKey_withCoeff hnumber])
  have hbase : (factor.withCoeff 1).baseOf = factor.baseOf := by
    cases factor <;> first | rfl | cases hnumber
  rw [← hbase]
  exact eq_inverseOfZero_of_signature (hloose.signature_baseOf isLoose_inverseOfZero
    (by rwa [multiplicativeKey_withCoeff hnumber]))

/-- A power of the inverse of zero: a call, or an exponential over it. -/
theorem eq_of_baseOf_eq_inverseOfZero (h : factor.baseOf = inverseOfZero) :
    (∃ c p, factor = .call c "pow" [.number 0, .number (-1)] p) ∨
      ∃ c e, factor = .exponential c inverseOfZero e := by
  cases factor <;> simp only [Expr.baseOf, inverseOfZero, unevaluatedPower, Expr.apply, withCoeff,
    withPower, reduceCtorEq, Expr.call.injEq] at h
  case exponential c base e =>
    subst h
    exact .inr ⟨c, e, rfl⟩
  case call c name args p =>
    obtain ⟨-, rfl, rfl, -⟩ := h
    exact .inl ⟨c, p, rfl⟩

theorem exists_mem_walk_of_baseOf (h : factor.baseOf = inverseOfZero) :
    ∃ c p, Expr.call c "pow" [.number 0, .number (-1)] p ∈ factor.walk := by
  rcases eq_of_baseOf_eq_inverseOfZero h with ⟨c, p, rfl⟩ | ⟨c, e, rfl⟩
  · exact ⟨c, p, mem_walk _⟩
  · refine ⟨1, 1, ?_⟩
    rw [walk]
    exact List.mem_append_right _ (mem_walk inverseOfZero)

/-- The inverse of zero joins a term that has no inverse of it. -/
theorem exponents_add_inverseOfZero_ne_zero (h : Canonical .proper term)
    (hsum : term.isExpandedSum = false)
    (hcancel : ∀ c, Expr.call c "pow" [.number 0, .number (-1)] (-1) ∉ term.factors) :
    (term.exponents + inverseOfZero.exponents) inverseOfZero.multiplicativeKey ≠ 0 := by
  have hone : inverseOfZero.exponents inverseOfZero.multiplicativeKey =
      Finsupp.single constantMark 1 := by
    rw [exponents_of_isFactor isLoose_inverseOfZero.isFactor, Finsupp.single_eq_same]
    exact linear_number 1
  intro hzero
  have hminus : term.exponents inverseOfZero.multiplicativeKey =
      Finsupp.single constantMark (-1) := by
    rw [Finsupp.add_apply, hone] at hzero
    rw [eq_neg_of_add_eq_zero_left hzero, ← Finsupp.single_neg]
  obtain ⟨factor, hfactor, hkey⟩ : ∃ factor ∈ term.factors,
      factor.multiplicativeKey = inverseOfZero.multiplicativeKey := by
    by_contra hnone
    push Not at hnone
    rw [exponents, exponentsOf_of_not_mem hnone] at hminus
    exact (Finsupp.single_ne_zero.mpr (by norm_num : (-1 : Rat) ≠ 0)) hminus.symm
  obtain ⟨hcanonical, hfactorial⟩ := h.factors hsum factor hfactor
  rw [exponents, ← hkey, exponentsOf_of_mem h.nodup_keys hfactor] at hminus
  rcases eq_of_baseOf_eq_inverseOfZero (baseOf_eq_inverseOfZero hcanonical hfactorial hkey) with
    ⟨c, p, rfl⟩ | ⟨c, e, rfl⟩
  · obtain rfl : p = -1 := Finsupp.single_injective constantMark
      ((linear_number p).symm.trans hminus)
    exact hcancel c hfactor
  · cases hcanonical with
    | plainBase _ _ _ _ hexponent hnumber =>
        rw [hexponent.isNumber_of_linear hminus] at hnumber
        cases hnumber

theorem walk_subset_of_mem_factors (h : factor ∈ node.factors) : factor.walk ⊆ node.walk := by
  cases node with
  | number => cases h
  | product c p slots =>
      obtain ⟨slot, hslot, rfl⟩ := List.mem_map.mp h
      have hmem : slot ∈ (Expr.product c p slots).slots := hslot
      exact walk_subset_of_mem_slots hmem
  | _ =>
      obtain rfl := List.mem_singleton.mp h
      exact List.Subset.refl _

end Arithmetic

end ExactAlgebra
