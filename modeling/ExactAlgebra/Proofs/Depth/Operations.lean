import ExactAlgebra.Proofs.Canonical.Factors
import ExactAlgebra.Proofs.Depth.Power

/-!
# Which operations fail

On canonical expressions in exact mode, sums and products always have a result, quotients
have one unless the divisor is zero, and powers unless the base is zero and the exponent is
a constant that is not positive.
-/

namespace ExactAlgebra.Arithmetic

open ExactAlgebra.Expr Reduce

variable {mode : Mode} {rules : Discipline} {a b : Expr} {p : Rat}

/-! ## Products and powers -/

theorem settled_of_reaches {run : Nat → Except Fault Expr} {property : Expr → Prop}
    (h : Reaches run property) : ∃ node, settled run = .ok node ∧ property node := by
  obtain ⟨node, hsettles, hnode⟩ := h
  exact ⟨node, settled_eq hsettles (by simp), hnode⟩

theorem exists_multiply (hrules : rules.Admissible mode) (hmode : mode.numeric = false)
    (ha : Canonical rules a) (hb : Canonical rules b) :
    ∃ node, multiply mode a b = .ok node ∧ Canonical rules node :=
  settled_of_reaches (reaches_multiply hrules hmode ha hb)

theorem zeroFault_kind (p : Rat) :
    (zeroFault p).kind = if p = 0 then .domain else .divisionByZero := by
  unfold zeroFault
  split_ifs <;> rfl

theorem settled_raiseTo_zero (hp : p ≤ 0) :
    settled (fun depth => raiseTo mode depth (.number 0) (.number p)) = .error (zeroFault p) := by
  refine settled_eq (settles_raiseTo_zero hp) ?_
  unfold zeroFault
  split_ifs <;> simp

theorem exists_pow (hrules : rules.Admissible mode) (hmode : mode.numeric = false)
    (ha : Canonical rules a) (hb : Canonical rules b) (h : ¬ IsUndefined a b) :
    ∃ node, pow mode a b = .ok node ∧ Canonical rules node := by
  obtain ⟨node, hsettled, hnode⟩ := settled_of_reaches (reaches_raiseTo hrules hmode ha hb h)
  exact ⟨node, by rw [pow, hsettled, guarded_ok], hnode⟩

/-- A product is that of large depths. -/
theorem exists_multiply_late (hmode : mode.numeric = false) (ha : Canonical .proper a)
    (hb : Canonical .proper b) : ∃ node, multiply mode a b = .ok node ∧ Canonical .proper node ∧
      ∀ᶠ depth in Filter.atTop, combineFactors mode depth a b = .ok node := by
  obtain ⟨node, hsettles, hnode⟩ :=
    reaches_multiply (Discipline.proper_admissible mode) hmode ha hb
  exact ⟨node, settled_eq hsettles (by simp), hnode, hsettles.late⟩

/-- A power is that of large depths. -/
theorem exists_pow_late (hmode : mode.numeric = false) (ha : Canonical .proper a)
    (hb : Canonical .proper b) (h : ¬ IsUndefined a b) :
    ∃ node, pow mode a b = .ok node ∧ Canonical .proper node ∧
      ∀ᶠ depth in Filter.atTop, raiseTo mode depth a b = .ok node := by
  obtain ⟨node, hsettles, hnode⟩ :=
    reaches_raiseTo (Discipline.proper_admissible mode) hmode ha hb h
  exact ⟨node, by rw [pow, settled_eq hsettles (by simp), guarded_ok], hnode, hsettles.late⟩

theorem pow_zero (hp : p ≤ 0) : pow mode (.number 0) (.number p) =
    guarded mode (.error (zeroFault p)) (.ok (unevaluatedPower (.number 0) (.number p))) := by
  rw [pow, settled_raiseTo_zero hp]

/-! ## Quotients -/

theorem exists_quotient (hrules : rules.Admissible mode) (hmode : mode.numeric = false)
    (ha : Canonical rules a) (hb : Canonical rules b) (h : b ≠ .number 0) :
    ∃ node, quotient mode a b = .ok node ∧ Canonical rules node := by
  have hcoeff : b.coeff ≠ 0 := by
    cases hnumber : b.isNumber with
    | false => exact hb.coeff_ne_zero hnumber
    | true =>
        obtain ⟨value, rfl⟩ := exists_eq_number hnumber
        simpa [Expr.coeff] using h
  unfold quotient
  split_ifs
  · exact ⟨.number (a.coeff / b.coeff), by simp only [Strict.divide, hcoeff, if_false]; rfl,
      .number _⟩
  · have hdefined : ¬ IsUndefined b (.number (-1)) := by
      rintro ⟨-, hzero, -⟩
      exact h hzero
    obtain ⟨inverse, hsettled, hinverse⟩ :=
      settled_of_reaches (reaches_raiseTo hrules hmode hb (.number (-1)) hdefined)
    rw [hsettled]
    exact exists_multiply hrules hmode ha hinverse

theorem quotient_zero (mode : Mode) (a : Expr) :
    ∃ fault, quotient mode a (.number 0) = .error fault ∧ fault.kind = .divisionByZero := by
  unfold quotient
  split_ifs
  · exact ⟨.divisionByZero a.coeff, rfl, rfl⟩
  · refine ⟨.zeroToNegative (-1), ?_, rfl⟩
    rw [settled_raiseTo_zero (by norm_num)]
    rfl

/-! ## Suppressed faults -/

theorem guarded_of_isDomain (hsuppress : mode.suppressErrors = true) {fault : Fault}
    (hdomain : fault.isDomain = true) (fallback : Except Fault Expr) :
    guarded mode (.error fault) fallback = fallback := by
  simp only [guarded, hsuppress, hdomain, Bool.and_self, if_true]

theorem isDomain_of_kind {fault : Fault} (h : fault.kind = .domain ∨ fault.kind = .divisionByZero) :
    fault.isDomain = true := by
  rcases h with h | h <;> simp only [Fault.isDomain, h]

/-! ## Faults in exact mode -/

theorem divide_error_iff (hmode : mode.numeric = false) (hstrict : mode.suppressErrors = false)
    (ha : Canonical .free a) (hb : Canonical .free b) :
    ((∃ fault, divide mode a b = .error fault) ↔ b = .number 0) ∧
      ∀ fault, divide mode a b = .error fault → fault.kind = .divisionByZero := by
  by_cases h : b = .number 0
  · subst h
    obtain ⟨fault, hquotient, hkind⟩ := quotient_zero mode a
    have hdivide : divide mode a (.number 0) = .error fault := by
      rw [divide, hquotient, guarded]
      simp [hstrict]
    refine ⟨iff_of_true ⟨fault, hdivide⟩ rfl, fun fault' hfault => ?_⟩
    cases hdivide.symm.trans hfault
    exact hkind
  · obtain ⟨node, hquotient, -⟩ :=
      exists_quotient (Discipline.free_admissible mode) hmode ha hb h
    have hdivide : divide mode a b = .ok node := by rw [divide, hquotient, guarded_ok]
    simp [hdivide, h]

theorem pow_error_iff (hmode : mode.numeric = false) (hstrict : mode.suppressErrors = false)
    (ha : Canonical .free a) (hb : Canonical .free b) :
    ((∃ fault, pow mode a b = .error fault) ↔ ∃ p, a = .number 0 ∧ b = .number p ∧ p ≤ 0) ∧
      ∀ fault, pow mode a b = .error fault →
        fault.kind = if b.isZero then .domain else .divisionByZero := by
  by_cases h : IsUndefined a b
  · obtain ⟨p, rfl, rfl, hp⟩ := h
    have hpow : pow mode (.number 0) (.number p) = .error (zeroFault p) := by
      rw [pow_zero hp, guarded]
      simp [hstrict]
    refine ⟨iff_of_true ⟨_, hpow⟩ ⟨p, rfl, rfl, hp⟩, fun fault hfault => ?_⟩
    cases hpow.symm.trans hfault
    simp [zeroFault_kind, isZero]
  · obtain ⟨node, hpow, -⟩ := exists_pow (Discipline.free_admissible mode) hmode ha hb h
    have hnone : ¬ ∃ p, a = .number 0 ∧ b = .number p ∧ p ≤ 0 := h
    simp only [hpow, reduceCtorEq, exists_false, false_iff, false_imp_iff, implies_true, and_true]
    exact hnone

end ExactAlgebra.Arithmetic
