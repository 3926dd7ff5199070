import ExactAlgebra.Expr.Terms
import ExactAlgebra.Proofs.Expr.Identity
import ExactAlgebra.Proofs.Expr.Slots

/-!
# Coefficients

A sum is read as a finitely supported function from contents to coefficients.
Rational multiples of an expression multiply all coefficients.
-/

namespace ExactAlgebra

/-- The total coefficient of each content among the terms of an expression. -/
noncomputable def Expr.linear (node : Expr) : Key →₀ Rat :=
  (node.terms.map fun term => Finsupp.single term.content term.coeff).sum

/-- The total coefficients of some slots. -/
noncomputable def Slots.linear (slots : Slots) : Key →₀ Rat :=
  (slots.map fun slot => slot.2.linear).sum

namespace Slots

@[simp] theorem linear_nil : linear [] = 0 := rfl

@[simp] theorem linear_cons (slot : Key × Expr) (slots : Slots) :
    linear (slot :: slots) = slot.2.linear + linear slots := by
  simp [linear]

@[simp] theorem linear_append (slots slots' : Slots) :
    linear (slots ++ slots') = linear slots + linear slots' := by
  simp [linear]

theorem linear_perm {slots slots' : Slots} (h : slots.Perm slots') :
    linear slots = linear slots' :=
  (h.map _).sum_eq

theorem linear_map_smul {factor : Rat} {slots : Slots} {f : Expr → Expr}
    (h : ∀ slot ∈ slots, (f slot.2).linear = factor • slot.2.linear) :
    linear (slots.map fun slot => (slot.1, f slot.2)) = factor • linear slots := by
  induction slots with
  | nil => simp
  | cons slot rest ih =>
      rw [List.forall_mem_cons] at h
      rw [List.map_cons, linear_cons, linear_cons, ih h.2, h.1, smul_add]

theorem linear_erase {key : Key} {child : Expr} {slots : Slots} (hslots : Distinct slots)
    (h : (key, child) ∈ slots) : linear slots = child.linear + linear (erase key slots) := by
  rw [linear_perm (perm_cons_erase hslots h), linear_cons]

end Slots

namespace Expr

/-! ## Parts -/

theorem walk_subset_slotsWalk {slots : Slots} {slot : Key × Expr} (h : slot ∈ slots) :
    slot.2.walk ⊆ slotsWalk slots := by
  induction slots with
  | nil => cases h
  | cons first rest ih =>
      rw [slotsWalk]
      rcases List.mem_cons.mp h with rfl | h
      · exact List.subset_append_left _ _
      · exact List.Subset.trans (ih h) (List.subset_append_right _ _)

theorem walk_subset_argsWalk {args : List Expr} {arg : Expr} (h : arg ∈ args) :
    arg.walk ⊆ argsWalk args := by
  induction args with
  | nil => cases h
  | cons first rest ih =>
      rw [argsWalk]
      rcases List.mem_cons.mp h with rfl | h
      · exact List.subset_append_left _ _
      · exact List.Subset.trans (ih h) (List.subset_append_right _ _)

theorem mem_walk (node : Expr) : node ∈ node.walk := by
  cases node <;> simp [walk]

theorem walk_subset_of_mem_slots {node : Expr} {slot : Key × Expr} (h : slot ∈ node.slots) :
    slot.2.walk ⊆ node.walk := by
  cases node with
  | polynomial | product | composite =>
      exact List.Subset.trans (walk_subset_slotsWalk h) (List.subset_cons_self _ _)
  | _ => cases h

/-! ## Terms -/

theorem terms_of_not_isExpandedSum {node : Expr} (h : node.isExpandedSum = false) :
    node.terms = [node] := by
  cases node <;> simp_all [terms, isExpandedSum, isSum, degreePower]

theorem linear_of_not_isExpandedSum {node : Expr} (h : node.isExpandedSum = false) :
    node.linear = Finsupp.single node.content node.coeff := by
  simp [linear, terms_of_not_isExpandedSum h]

@[simp] theorem linear_number (value : Rat) :
    (number value).linear = Finsupp.single constantMark value := by
  rw [linear_of_not_isExpandedSum rfl, content, coeff]

theorem terms_slotsTerms (slots : Slots) :
    slotsTerms slots = slots.flatMap fun slot => slot.2.terms := by
  induction slots with
  | nil => rfl
  | cons slot rest ih =>
      rw [List.flatMap_cons, ← ih]
      rfl

theorem linear_slotsTerms (slots : Slots) :
    ((slotsTerms slots).map fun term => Finsupp.single term.content term.coeff).sum =
      slots.linear := by
  induction slots with
  | nil => rfl
  | cons slot rest ih =>
      rw [Slots.linear_cons, ← ih, slotsTerms, List.map_append, List.sum_append]
      rfl

theorem linear_of_isExpandedSum {node : Expr} (h : node.isExpandedSum = true) :
    node.linear = node.slots.linear := by
  rw [← linear_slotsTerms]
  cases node <;> simp_all [linear, terms, isExpandedSum, isSum, degreePower, slots]

@[simp] theorem linear_polynomial (coeff : Rat) (terms : Slots) :
    (polynomial coeff 1 terms).linear = terms.linear :=
  linear_of_isExpandedSum rfl

@[simp] theorem linear_composite (coeff : Rat) (terms : Slots) :
    (composite coeff 1 terms).linear = terms.linear :=
  linear_of_isExpandedSum rfl

end Expr

namespace Reduce

variable {factor : Rat} {node : Expr}

/-! ## Rational multiples -/

theorem scaleSlots_eq_map (factor : Rat) (slots : Slots) :
    scaleSlots factor slots = slots.map fun slot => (slot.1, scale factor slot.2) := by
  induction slots with
  | nil => rfl
  | cons slot rest ih =>
      rw [List.map_cons, ← ih]
      rfl

theorem scale_one (node : Expr) : scale 1 node = node := by
  unfold scale
  simp

theorem scale_zero (node : Expr) : scale 0 node = .number 0 := by
  unfold scale
  simp

theorem scale_of_not_isExpandedSum (hfactor : factor ≠ 0) (h : node.isExpandedSum = false) :
    scale factor node = node.withCoeff (node.coeff * factor) := by
  by_cases hone : factor = 1
  · subst factor
    rw [scale_one, mul_one, Expr.withCoeff_coeff]
  · unfold scale
    rw [if_neg hfactor, if_neg hone]
    cases node <;>
      simp_all [Expr.withCoeff, Expr.coeff, Expr.isExpandedSum, Expr.isSum, Expr.degreePower]

theorem scale_polynomial (hfactor : factor ≠ 0) (coeff : Rat) (terms : Slots) :
    scale factor (.polynomial coeff 1 terms) =
      .polynomial coeff 1 (terms.map fun slot => (slot.1, scale factor slot.2)) := by
  by_cases hone : factor = 1
  · subst factor
    simp [scale_one]
  · rw [scale, if_neg hfactor, if_neg hone]
    simp [scaleSlots_eq_map]

theorem scale_composite (hfactor : factor ≠ 0) (coeff : Rat) (terms : Slots) :
    scale factor (.composite coeff 1 terms) =
      .composite coeff 1 (terms.map fun slot => (slot.1, scale factor slot.2)) := by
  by_cases hone : factor = 1
  · subst factor
    simp [scale_one]
  · rw [scale, if_neg hfactor, if_neg hone]
    simp [scaleSlots_eq_map]

/-- An expanded sum and its multiple differ in their slots alone. -/
theorem scale_of_isExpandedSum (hfactor : factor ≠ 0) (h : node.isExpandedSum = true) :
    scale factor node =
      node.withSlots (node.slots.map fun slot => (slot.1, scale factor slot.2)) := by
  obtain ⟨hsum, hpower⟩ := Expr.isExpandedSum_iff.mp h
  rcases Expr.isSum_iff.mp hsum with ⟨coeff, power, terms, rfl⟩ | ⟨coeff, power, terms, rfl⟩
  · simp only [Expr.degreePower] at hpower
    subst power
    exact scale_polynomial hfactor coeff terms
  · simp only [Expr.degreePower] at hpower
    subst power
    exact scale_composite hfactor coeff terms

@[simp] theorem group_scale (hfactor : factor ≠ 0) : (scale factor node).group = node.group := by
  cases h : node.isExpandedSum with
  | false => rw [scale_of_not_isExpandedSum hfactor h, Expr.group_withCoeff]
  | true =>
      rw [scale_of_isExpandedSum hfactor h]
      cases node <;> rfl

@[simp] theorem degreePower_scale (hfactor : factor ≠ 0) :
    (scale factor node).degreePower = node.degreePower := by
  cases h : node.isExpandedSum with
  | false => rw [scale_of_not_isExpandedSum hfactor h, Expr.degreePower_withCoeff]
  | true =>
      rw [scale_of_isExpandedSum hfactor h]
      cases node <;> rfl

theorem slots_scale (hfactor : factor ≠ 0) (h : node.isExpandedSum = true) :
    (scale factor node).slots = node.slots.map fun slot => (slot.1, scale factor slot.2) := by
  rw [scale_of_isExpandedSum hfactor h]
  cases node <;> rfl

theorem isSum_scale (hfactor : factor ≠ 0) : (scale factor node).isSum = node.isSum := by
  have hgroup : (scale factor node).group = node.group := group_scale hfactor
  cases hs : scale factor node <;> cases node <;> simp_all [Expr.group, Expr.isSum]

theorem isExpandedSum_scale (hfactor : factor ≠ 0) :
    (scale factor node).isExpandedSum = node.isExpandedSum := by
  rw [Expr.isExpandedSum, Expr.isExpandedSum, isSum_scale hfactor, degreePower_scale hfactor]

theorem isNumber_scale (hfactor : factor ≠ 0) :
    (scale factor node).isNumber = node.isNumber := by
  have hgroup : (scale factor node).group = node.group := group_scale hfactor
  cases hs : scale factor node <;> cases node <;> simp_all [Expr.group, Expr.isNumber]

theorem isPowered_scale (hfactor : factor ≠ 0) (h : node.isPowered = true) :
    (scale factor node).isPowered = true := by
  have hsum : node.isExpandedSum = false := by
    cases node <;>
      simp_all [Expr.isPowered, Expr.isExpandedSum, Expr.isAtomSum, Expr.isSum, Expr.degreePower]
  rw [scale_of_not_isExpandedSum hfactor hsum, Expr.isPowered_withCoeff, h]

theorem linear_scale (factor : Rat) (node : Expr) :
    (scale factor node).linear = factor • node.linear := by
  by_cases hfactor : factor = 0
  · simp [hfactor, scale_zero]
  induction node using Expr.slots_induction with
  | step node ih =>
      cases hsum : node.isExpandedSum with
      | false =>
          rw [scale_of_not_isExpandedSum hfactor hsum, Expr.linear_of_not_isExpandedSum hsum,
            Expr.linear_of_not_isExpandedSum (by simpa using hsum)]
          simp [mul_comm]
      | true =>
          have hsum' : (scale factor node).isExpandedSum = true := by
            rwa [isExpandedSum_scale hfactor]
          rw [Expr.linear_of_isExpandedSum hsum, Expr.linear_of_isExpandedSum hsum',
            slots_scale hfactor hsum]
          exact Slots.linear_map_smul ih

end Reduce

end ExactAlgebra
