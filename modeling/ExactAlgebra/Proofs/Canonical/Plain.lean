import ExactAlgebra.Proofs.Canonical.Factors

/-!
# Powers that stay as they are

A variable, a call or a sum to a power that neither expands nor reduces it, a separate
radical, and an exponential with a reduced base are the results of raising their base to
their exponent.
-/

namespace ExactAlgebra

open ExactAlgebra.Expr Reduce

namespace Expr

variable {node : Expr}

theorem isPlain_iff : node.isPlain = true ↔
    (node.group = .symbol ∨ node.group = .call ∨ node.isSum = true) ∧
      node.coeff = 1 ∧ node.degreePower = 1 := by
  cases node <;> simp [isPlain, group, isSum]

theorem baseOf_of_isPlain (h : node.isPlain = true) : node.baseOf = node := by
  cases node <;> simp_all [isPlain, baseOf, withCoeff, withPower, coeff, degreePower]

theorem exponent_of_isPlain (h : node.isPlain = true) : node.exponent = .rational 1 := by
  cases node <;> simp_all [isPlain, exponent, degreePower]

theorem isNumber_of_isPlain (h : node.isPlain = true) : node.isNumber = false := by
  cases node <;> simp_all [isPlain, isNumber]

end Expr

namespace Reduce

variable {mode : Mode} {fuel : Nat} {p : Rat} {a b : Expr}

/-! ## Rational exponents -/

/-- Exponents that a plain base carries unchanged. -/
structure Carries (mode : Mode) (base : Expr) (p : Rat) : Prop where
  ne_zero : p ≠ 0
  symbol : base.isNamed mode.imaginary = true → Ratio.isInteger p = true → p = 1
  sum : base.isSum = true → p < 0 ∨ (0 < p ∧ p < 1)

theorem raiseBase_of_isPlain (fuel : Nat) (h : a.isPlain = true) (hp : Carries mode a p) :
    raiseBase mode (fuel + 1) a (.rational p) = .ok (a.withPower p) := by
  have hzero := hp.ne_zero
  rw [raiseBase.eq_def]
  by_cases hone : p = 1
  · subst hone
    cases a <;> simp_all [isPlain, asNode, asExponent, withPower, degreePower]
  · have hsum : a.isSum = true → ¬ 1 < p := fun hsum => by
      rcases hp.sum hsum with hneg | hfraction
      · linarith
      · exact not_lt.mpr hfraction.2.le
    have hsymbol := hp.symbol
    cases a <;> simp_all [isPlain, asNode, asExponent, isSum, isNamed, coeff, degreePower]

theorem raiseTo_of_isPlain (h : a.isPlain = true) (hp : Carries mode a p) :
    raiseTo mode (fuel + 2) a (.number p) = .ok (a.withPower p) := by
  have hcoeff : a.coeff = 1 := (isPlain_iff.mp h).2.1
  have hmultiply : multiplyPowers mode (fuel + 1) a.exponent (.rational p) =
      .ok (.rational p) := by
    rw [exponent_of_isPlain h, multiplyPowers.eq_def]
    simp only [one_mul]
  have hraise := raiseBase_of_isPlain fuel h hp
  have hnumber := isNumber_of_isPlain h
  rw [raiseTo.eq_def]
  cases a <;> simp only [isNumber, Bool.true_eq_false] at hnumber <;>
    simp only [hp.ne_zero, if_false, hmultiply, bind, Except.bind, baseOf_of_isPlain h, hraise,
      hcoeff, if_true] <;> rfl

/-! ## Radicals -/

theorem not_isInteger_of_isRadical {base : Rat} (h : IsRadical base p) :
    Ratio.isInteger p = false := by
  rcases h with ⟨-, -, hpos, hlt⟩ | ⟨-, -, -, -, hden⟩
  · rw [Ratio.isInteger, beq_eq_false_iff_ne]
    intro hden
    have hnum : (p.num : Rat) = p := (Rat.den_eq_one_iff p).mp hden
    rw [← hnum] at hpos hlt
    have h1 : 0 < p.num := by exact_mod_cast hpos
    have h2 : p.num < 1 := by exact_mod_cast hlt
    omega
  · rw [Ratio.isInteger, beq_eq_false_iff_ne]
    omega

/-- A separate radical with small primes is the power of its base. -/
theorem numberPower_of_isRadical (hmode : mode.numeric = false) {base : Rat}
    (hseparate : IsSeparate [(base, p)]) (hsmall : IsSmall [(base, p)]) :
    numberPower mode (fuel + 3) base p = .ok (.radical 1 base p) := by
  have hradical : IsRadical base p := (hsmall _ List.mem_cons_self).1
  have hinteger := not_isInteger_of_isRadical hradical
  have hzero : p ≠ 0 := by
    rintro rfl
    cases hinteger
  rw [numberPower.eq_def]
  rcases hradical with ⟨hden, htwo, hpos, hlt⟩ | ⟨rfl, hminus⟩
  · have hbase : base ≠ 0 := by linarith
    have hone : base ≠ 1 := by linarith
    have hneg : ¬ base < 0 := by linarith
    obtain ⟨roots, hform, hperm⟩ := exists_combineRadicals_eq hmode hseparate hsmall
    obtain rfl : roots = [(base, p)] := List.perm_singleton.mp hperm
    simp only [hbase, if_false, hzero, hone, or_false, hinteger, Bool.false_eq_true, hneg, hmode,
      hden, ne_eq, not_true_eq_false, hform, bind, Except.bind]
    rw [buildProduct.eq_def]
    rfl
  · have hmagnitude : numberPower mode (fuel + 2) (- -1) p = .ok (.number 1) := by
      rw [numberPower.eq_def]
      simp
    have hturn := negativeOnePower_of_isRadical hmode (.inr ⟨rfl, hminus⟩ : IsRadical (-1) p)
    simp only [show (-1 : Rat) ≠ 0 by norm_num, show (-1 : Rat) ≠ 1 by norm_num,
      show (-1 : Rat) < 0 by norm_num, if_false, if_true, hzero, or_false, hinteger,
      Bool.false_eq_true, hmagnitude, hturn, bind, Except.bind, scale_one,
      (combineFactors_number mode (fuel + 1) 1 _).2]

/-! ## Exponents that are no constants -/

theorem exponential_of_isPlain (h : a.isPlain = true) :
    Reduce.exponential mode (fuel + 1) a b = .ok (.exponential 1 a b) := by
  rw [exponential.eq_def]
  cases a <;> simp_all [isPlain]

theorem raiseTo_symbolic (h : a.isPlain = true) (hb : b.isNumber = false) :
    raiseTo mode (fuel + 3) a b = .ok (.exponential 1 a b) := by
  have hcoeff : a.coeff = 1 := (isPlain_iff.mp h).2.1
  have hexponent : asExponent b = .symbolic b := by cases b <;> simp_all [asExponent, isNumber]
  have hmultiply : multiplyPowers mode (fuel + 2) a.exponent (.symbolic b) =
      .ok (.symbolic b) := by
    rw [exponent_of_isPlain h, multiplyPowers.eq_def]
    simp only [asNode, (combineFactors_number mode fuel 1 b).2, scale_one, bind, Except.bind,
      hexponent]
    rfl
  have hraise : raiseBase mode (fuel + 2) a (.symbolic b) = .ok (.exponential 1 a b) := by
    rw [raiseBase.eq_def]
    simp only [asNode, hexponent]
    exact exponential_of_isPlain h
  have hanumber := isNumber_of_isPlain h
  rw [raiseTo.eq_def]
  cases a <;> simp only [isNumber, Bool.true_eq_false] at hanumber <;>
    cases b <;> simp only [isNumber, Bool.true_eq_false] at hb <;>
    simp only [hmultiply, bind, Except.bind, baseOf_of_isPlain h, hraise, hcoeff, if_true] <;> rfl

theorem exponential_constantBase {base : Rat} (hzero : base ≠ 0) (hone : base ≠ 1)
    (hreduced : reduceBase base b = (base, b)) (hconstant : constantTerm b = 0) :
    Reduce.exponential mode (fuel + 1) (.number base) b =
      .ok (.exponential 1 (.number base) b) := by
  rw [exponential.eq_def]
  simp only [hzero, hone, or_self, if_false, hreduced, hconstant, if_true]

theorem raiseBase_constantBase {base : Rat} (hzero : base ≠ 0) (hone : base ≠ 1)
    (hreduced : reduceBase base b = (base, b)) (hconstant : constantTerm b = 0)
    (hb : b.isNumber = false) :
    raiseBase mode (fuel + 2) (.number base) (.symbolic b) =
      .ok (.exponential 1 (.number base) b) := by
  have hexponent : asExponent b = .symbolic b := by cases b <;> simp_all [asExponent, isNumber]
  rw [raiseBase.eq_def]
  simp only [asNode, hexponent]
  exact exponential_constantBase hzero hone hreduced hconstant

theorem raiseTo_constantBase {base : Rat} (hzero : base ≠ 0) (hone : base ≠ 1)
    (hreduced : reduceBase base b = (base, b)) (hconstant : constantTerm b = 0)
    (hb : b.isNumber = false) :
    raiseTo mode (fuel + 2) (.number base) b = .ok (.exponential 1 (.number base) b) := by
  rw [raiseTo.eq_def]
  cases b <;> simp only [isNumber, Bool.true_eq_false] at hb <;>
    exact exponential_constantBase hzero hone hreduced hconstant

end Reduce

namespace Arithmetic

variable {mode : Mode} {p : Rat} {a b : Expr}

theorem pow_of_raiseTo {result : Expr}
    (h : ∀ fuel, raiseTo mode (fuel + 4) a b = .ok result) : pow mode a b = .ok result := by
  obtain ⟨fuel, hfuel⟩ := exists_pow_eq mode a b
  rw [hfuel, h (fuel + 27), guarded_ok]

theorem pow_of_isPlain (h : a.isPlain = true) (hp : Carries mode a p) :
    pow mode a (.number p) = .ok (a.withPower p) :=
  pow_of_raiseTo fun _ => raiseTo_of_isPlain h hp

theorem pow_of_isRadical (hmode : mode.numeric = false) {base : Rat}
    (hseparate : IsSeparate [(base, p)]) (hsmall : IsSmall [(base, p)]) :
    pow mode (.number base) (.number p) = .ok (.radical 1 base p) :=
  pow_of_raiseTo fun fuel => by
    rw [raiseTo.eq_def]
    exact numberPower_of_isRadical hmode hseparate hsmall

theorem pow_symbolic (h : a.isPlain = true) (hb : b.isNumber = false) :
    pow mode a b = .ok (.exponential 1 a b) :=
  pow_of_raiseTo fun _ => raiseTo_symbolic h hb

theorem pow_constantBase {base : Rat} (hzero : base ≠ 0) (hone : base ≠ 1)
    (hreduced : reduceBase base b = (base, b)) (hconstant : constantTerm b = 0)
    (hb : b.isNumber = false) :
    pow mode (.number base) b = .ok (.exponential 1 (.number base) b) :=
  pow_of_raiseTo fun _ => raiseTo_constantBase hzero hone hreduced
    hconstant hb

end Arithmetic

end ExactAlgebra
