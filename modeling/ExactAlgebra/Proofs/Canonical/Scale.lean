import ExactAlgebra.Proofs.Canonical.Basic
import ExactAlgebra.Proofs.Expr.Linear

/-!
# Rational multiples of canonical expressions

A rational multiple other than zero keeps the class, the exponent and the slots of
a canonical expression, so it is canonical again.
-/

namespace ExactAlgebra

namespace Expr

/-- No sum of dissimilar terms with exponent one: what may stand in such a sum. -/
def IsFlat (node : Expr) : Prop := ¬ (node.group = .composite ∧ node.degreePower = 1)

theorem isFlat_of_not_isExpandedSum {node : Expr} (h : node.isExpandedSum = false) :
    node.IsFlat := by
  rintro ⟨hgroup, hpower⟩
  cases node <;> simp_all [group, isExpandedSum, isSum, degreePower]

theorem not_isExpandedSum_of_isPowered {node : Expr} (h : node.isPowered = true) :
    node.isExpandedSum = false := by
  cases node <;> simp_all [isPowered, isExpandedSum, isAtomSum, isSum, degreePower]

theorem not_isNumber_of_isPowered {node : Expr} (h : node.isPowered = true) :
    node.isNumber = false := by
  cases node <;> simp_all [isPowered, isNumber, isAtomSum, isSum]

end Expr

namespace Reduce

open ExactAlgebra.Expr

variable {rules : Discipline} {a b node old term : Expr} {factor : Rat} {key : Key}
  {terms : Slots}

/-! ## Rational multiples -/

theorem baseKey_scale (hfactor : factor ≠ 0) (h : node.isPowered = true) :
    (scale factor node).baseKey = node.baseKey := by
  rw [scale_of_not_isExpandedSum hfactor (not_isExpandedSum_of_isPowered h),
    baseKey_withCoeff (not_isNumber_of_isPowered h)]

theorem exponent_scale (hfactor : factor ≠ 0) (h : node.isPowered = true) :
    (scale factor node).exponent = node.exponent := by
  rw [scale_of_not_isExpandedSum hfactor (not_isExpandedSum_of_isPowered h),
    exponent_withCoeff]

theorem isPolynomial_scale (hfactor : factor ≠ 0) (h : IsPolynomial terms) :
    IsPolynomial (terms.map fun slot => (slot.1, scale factor slot.2)) where
  two_le := by simpa using h.two_le
  distinct := by simpa [Slots.Distinct, Function.comp_def] using h.distinct
  powered := List.forall_mem_map.mpr fun slot hslot =>
    isPowered_scale hfactor (h.powered slot hslot)
  key := List.forall_mem_map.mpr fun slot hslot =>
    (h.key slot hslot).trans
      (congrArg Exponent.key (exponent_scale hfactor (h.powered slot hslot)).symm)
  base := List.forall_mem_map.mpr fun first hfirst =>
    List.forall_mem_map.mpr fun second hsecond => by
      rw [baseKey_scale hfactor (h.powered first hfirst),
        baseKey_scale hfactor (h.powered second hsecond)]
      exact h.base first hfirst second hsecond

/-- The slot of an expanded polynomial is that of its terms. -/
theorem additiveKey_polynomial (h : IsPolynomial terms) {slot : Key × Expr}
    (hslot : slot ∈ terms) (coeff : Rat) :
    (polynomial coeff 1 terms).additiveKey = slot.2.additiveKey := by
  rw [additiveKey_of_isPowered (h.powered slot hslot)]
  cases terms with
  | nil => simp at hslot
  | cons first rest =>
      obtain ⟨firstKey, child⟩ := first
      exact h.base (firstKey, child) List.mem_cons_self slot hslot

theorem additiveKey_scale (hfactor : factor ≠ 0) (hnode : Canonical rules node)
    (hflat : node.IsFlat) : (scale factor node).additiveKey = node.additiveKey := by
  cases hsum : node.isExpandedSum with
  | false => rw [scale_of_not_isExpandedSum hfactor hsum, additiveKey_withCoeff]
  | true =>
      cases hnode <;> simp [isExpandedSum, isSum, degreePower] at hsum
      case polynomial coeff power terms _ _ hslots _ =>
        subst power
        rw [scale_polynomial hfactor]
        cases terms with
        | nil => exact absurd hslots.two_le (by simp)
        | cons first rest =>
            rw [additiveKey_polynomial hslots List.mem_cons_self,
              additiveKey_polynomial (isPolynomial_scale hfactor hslots) List.mem_cons_self]
            change (scale factor first.2).additiveKey = _
            have hpowered := hslots.powered first List.mem_cons_self
            rw [scale_of_not_isExpandedSum hfactor (not_isExpandedSum_of_isPowered hpowered),
              additiveKey_withCoeff]
      case composite =>
        subst hsum
        exact absurd ⟨rfl, rfl⟩ hflat

theorem eq_number_of_scale_eq (hfactor : factor ≠ 0) {value : Rat}
    (h : scale factor node = .number value) :
    ∃ old, node = .number old ∧ old * factor = value := by
  have hnumber : (scale factor node).isNumber = node.isNumber := isNumber_scale hfactor
  rw [h] at hnumber
  cases node with
  | number old =>
      rw [scale_of_not_isExpandedSum hfactor rfl] at h
      exact ⟨old, rfl, Expr.number.inj h⟩
  | _ => cases hnumber

theorem isComposite_scale (hconstant : ∀ value, value ≠ 0 → rules.constant value)
    (hfactor : factor ≠ 0) (h : IsComposite rules terms)
    (hterms : ∀ slot ∈ terms, Canonical rules slot.2) :
    IsComposite rules (terms.map fun slot => (slot.1, scale factor slot.2)) where
  two_le := by simpa using h.two_le
  distinct := by simpa [Slots.Distinct, Function.comp_def] using h.distinct
  key := List.forall_mem_map.mpr fun slot hslot => by
    rw [additiveKey_scale hfactor (hterms slot hslot) (h.flat slot hslot)]
    exact h.key slot hslot
  flat := List.forall_mem_map.mpr fun slot hslot => by
    rw [group_scale hfactor, degreePower_scale hfactor]
    exact h.flat slot hslot
  constant := List.forall_mem_map.mpr fun slot hslot value hvalue => by
    obtain ⟨old, hold, rfl⟩ := eq_number_of_scale_eq hfactor hvalue
    by_cases hzero : old = 0
    · subst hzero
      rw [zero_mul]
      exact h.constant slot hslot 0 hold
    · exact hconstant _ (mul_ne_zero hzero hfactor)

theorem canonical_scale (hconstant : ∀ value, value ≠ 0 → rules.constant value)
    (hfactor : factor ≠ 0) (h : Canonical rules node) : Canonical rules (scale factor node) := by
  induction h with
  | polynomial hsum hrules hslots hterms ih =>
      rename_i coeff power terms
      by_cases hpower : power = 1
      · subst hpower
        rw [scale_polynomial hfactor]
        exact .polynomial hsum (absurd rfl) (isPolynomial_scale hfactor hslots)
          (List.forall_mem_map.mpr ih)
      · rw [scale_of_not_isExpandedSum hfactor (by simp [isExpandedSum, degreePower, hpower])]
        exact .polynomial (hsum.withCoeff hpower (mul_ne_zero hsum.coeff_ne_zero hfactor))
          hrules hslots hterms
  | composite hsum hrules hslots hterms ih =>
      rename_i coeff power terms
      by_cases hpower : power = 1
      · subst hpower
        rw [scale_composite hfactor]
        exact .composite hsum (absurd rfl) (isComposite_scale hconstant hfactor hslots hterms)
          (List.forall_mem_map.mpr ih)
      · rw [scale_of_not_isExpandedSum hfactor (by simp [isExpandedSum, degreePower, hpower])]
        exact .composite (hsum.withCoeff hpower (mul_ne_zero hsum.coeff_ne_zero hfactor))
          hrules hslots hterms
  | number value =>
      rw [scale_of_not_isExpandedSum hfactor rfl]
      exact .number _
  | radical hcoeff hradical hrules =>
      rw [scale_of_not_isExpandedSum hfactor rfl]
      exact .radical (mul_ne_zero hcoeff hfactor) hradical hrules
  | symbol hcoeff hpower hrules =>
      rw [scale_of_not_isExpandedSum hfactor rfl]
      exact .symbol (mul_ne_zero hcoeff hfactor) hpower hrules
  | constantBase hcoeff hzero hone hrules hexponent hnumber =>
      rw [scale_of_not_isExpandedSum hfactor rfl]
      exact .constantBase (mul_ne_zero hcoeff hfactor) hzero hone hrules hexponent hnumber
  | plainBase hcoeff hplain hrules hbase hexponent hnumber =>
      rw [scale_of_not_isExpandedSum hfactor rfl]
      exact .plainBase (mul_ne_zero hcoeff hfactor) hplain hrules hbase hexponent hnumber
  | call hcoeff hpower hrules hargs =>
      rw [scale_of_not_isExpandedSum hfactor rfl]
      exact .call (mul_ne_zero hcoeff hfactor) hpower hrules hargs
  | product hcoeff hslots hfactors =>
      rw [scale_of_not_isExpandedSum hfactor rfl]
      exact .product (mul_ne_zero hcoeff hfactor) hslots hfactors

end Reduce

end ExactAlgebra
