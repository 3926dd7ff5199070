import ExactAlgebra.Proofs.Canonical.PowerProduct

/-!
# The exponent law

Powers of a variable are single factors, and their exponents add as expressions.  Powers of
a constant are products of roots and of one power.  In both cases the product of two powers
of one base is the power to the sum of their exponents.
-/

namespace ExactAlgebra

open ExactAlgebra.Expr

namespace Reduce

variable {mode : Mode} {fuel : Nat} {name : String} {a b exponent : Expr}

/-! ## Powers of a variable -/

/-- A variable to a power. -/
def variablePower (name : String) : Expr → Expr
  | .number p => if p = 0 then .number 1 else .symbol 1 name p
  | exponent => .exponential 1 (.named name) exponent

theorem variablePower_number {p : Rat} (hp : p ≠ 0) :
    variablePower name (.number p) = .symbol 1 name p := if_neg hp

theorem variablePower_of_not_isNumber (h : exponent.isNumber = false) :
    variablePower name exponent = .exponential 1 (.named name) exponent := by
  cases exponent <;> first | rfl | cases h

theorem raiseBase_variable (fuel : Nat) (hname : name ≠ mode.imaginary) (exponent : Expr) :
    raiseBase mode (fuel + 2) (.named name) (asExponent exponent) =
      .ok (variablePower name exponent) := by
  cases hnumber : exponent.isNumber with
  | true =>
      obtain ⟨p, rfl⟩ := exists_eq_number hnumber
      by_cases hp : p = 0
      · subst hp
        exact raiseBase_zero rfl
      · rw [variablePower_number hp]
        exact raiseBase_symbol hname hp
  | false =>
      rw [variablePower_of_not_isNumber hnumber, raiseBase.eq_def]
      simp only [asExponent_asNode_asExponent]
      rw [asExponent_of_not_isNumber hnumber]
      exact exponential_of_isPlain rfl

/-- A power of a variable that is no constant. -/
structure IsVariablePower (name : String) (exponent node : Expr) : Prop where
  factor : node.isFactor = true
  coeff : node.coeff = 1
  group : node.group ≠ .product
  key : node.multiplicativeKey = (Expr.named name).multiplicativeKey
  base : node.baseOf = .named name
  exponent : node.exponent = asExponent exponent

theorem isVariablePower (name : String) (h : exponent.isZero = false) :
    IsVariablePower name exponent (variablePower name exponent) := by
  cases hnumber : exponent.isNumber with
  | true =>
      obtain ⟨p, rfl⟩ := exists_eq_number hnumber
      rw [variablePower_number (by simpa [isZero] using h)]
      constructor <;> first | rfl | simp [Expr.group]
  | false =>
      rw [variablePower_of_not_isNumber hnumber]
      constructor
      case exponent => rw [asExponent_of_not_isNumber hnumber]; rfl
      all_goals first | rfl | simp [Expr.group]

/-- Powers of one variable in a product. -/
theorem multiplyContent_variablePower {x y : Expr} (hx : IsVariablePower name a x)
    (hy : IsVariablePower name b y) :
    multiplyContent mode (fuel + 1) x y = combinePowers mode fuel x y := by
  have hkey : x.multiplicativeKey = y.multiplicativeKey := hx.key.trans hy.key.symm
  have hxsum := (isFactor_iff.mp hx.factor).2.2
  have hysum := (isFactor_iff.mp hy.factor).2.2
  have hxgroup := hx.group
  have hygroup := hy.group
  rw [multiplyContent.eq_def]
  cases x <;> simp only [Expr.group, ne_eq, not_true_eq_false] at hxgroup <;>
    cases y <;> simp only [Expr.group, ne_eq, not_true_eq_false] at hygroup <;>
    simp only [hxsum, hysum, Bool.or_self, Bool.false_eq_true, if_false, hkey, if_true]

/-- The exponents of powers of a variable add. -/
theorem exists_combineFactors_variablePower (fuel : Nat) (hname : name ≠ mode.imaginary)
    (ha : Canonical .proper a) (hb : Canonical .proper b) :
    ∃ sum, combineFactors mode (fuel + 5) (variablePower name a) (variablePower name b) =
        .ok (variablePower name sum) ∧
      Canonical .proper sum ∧ sum.linear = a.linear + b.linear := by
  have hcancel : ∀ {node : Expr}, node.isZero = true →
      variablePower name node = .number 1 ∧ node.linear = 0 := by
    intro node hzero
    obtain ⟨p, rfl⟩ : ∃ p, node = .number p := by cases node <;> simp_all [isZero]
    obtain rfl : p = 0 := by simpa [isZero] using hzero
    exact ⟨rfl, by simp⟩
  cases hazero : a.isZero with
  | true =>
      obtain ⟨hone, hlinear⟩ := hcancel hazero
      refine ⟨b, ?_, hb, by rw [hlinear, zero_add]⟩
      rw [hone, (combineFactors_number mode (fuel + 4) 1 _).2, scale_one]
  | false =>
  cases hbzero : b.isZero with
  | true =>
      obtain ⟨hone, hlinear⟩ := hcancel hbzero
      refine ⟨a, ?_, ha, by rw [hlinear, add_zero]⟩
      rw [hone, (combineFactors_number mode (fuel + 4) 1 _).1, scale_one]
  | false =>
  have hpower := isVariablePower name hazero
  have hpower' := isVariablePower name hbzero
  have hmerge : ∀ {a b x y : Expr}, Canonical .proper a → Canonical .proper b →
      IsVariablePower name a x → IsVariablePower name b y →
      ∃ sum, multiplyContent mode (fuel + 4) x y = .ok (variablePower name sum) ∧
        Canonical .proper sum ∧ sum.linear = a.linear + b.linear := by
    intro a b x y ha hb hx hy
    obtain ⟨sum, hadd, hsum, hlinear⟩ := exists_addExponents (fun _ hvalue => hvalue) ha hb
    refine ⟨sum, ?_, hsum, hlinear⟩
    rw [multiplyContent_variablePower hx hy, combinePowers.eq_def]
    simp only [hx.exponent, hy.exponent, hadd, bind, Except.bind, hx.base,
      raiseBase_variable fuel hname, hx.coeff, hy.coeff, mul_one, scale_one]
    rfl
  obtain ⟨x, y, ⟨rfl, rfl⟩ | ⟨rfl, rfl⟩, hstep⟩ := combineFactors_eq_map mode
    (isFactor_iff.mp hpower.factor).1 (isFactor_iff.mp hpower'.factor).1
  · obtain ⟨sum, hok, hsum, hlinear⟩ := hmerge ha hb hpower hpower'
    refine ⟨sum, ?_, hsum, hlinear⟩
    rw [hstep, withCoeff_of_coeff_eq hpower.coeff, withCoeff_of_coeff_eq hpower'.coeff, hok,
      hpower.coeff, hpower'.coeff, mul_one, Except.map, scale_one]
  · obtain ⟨sum, hok, hsum, hlinear⟩ := hmerge hb ha hpower' hpower
    refine ⟨sum, ?_, hsum, hlinear.trans (add_comm _ _)⟩
    rw [hstep, withCoeff_of_coeff_eq hpower.coeff, withCoeff_of_coeff_eq hpower'.coeff, hok,
      hpower.coeff, hpower'.coeff, mul_one, Except.map, scale_one]

theorem signature_variablePower (ha : Canonical .proper a) (hb : Canonical .proper b)
    (h : a.linear = b.linear) :
    (variablePower name a).signature = (variablePower name b).signature := by
  have hsame := ha.signature_eq_of_linear (fun _ hvalue => hvalue) hb h
  have hnumbers := isNumber_eq_of_content (content_eq_of_signature hsame)
  cases hnumber : a.isNumber with
  | true =>
      obtain ⟨p, rfl⟩ := exists_eq_number hnumber
      obtain ⟨q, rfl⟩ := exists_eq_number (hnumbers.symm.trans hnumber)
      obtain rfl : p = q := coeff_eq_of_signature hsame
      rfl
  | false =>
      rw [variablePower_of_not_isNumber hnumber,
        variablePower_of_not_isNumber (hnumbers.symm.trans hnumber)]
      exact signature_exponential rfl hsame

end Reduce

namespace Arithmetic

open Reduce

variable {mode : Mode} {base a b : Expr}

/-- The bases of which all powers merge: positive rationals without large primes, and
variables other than the imaginary unit. -/
inductive IsMergingBase (mode : Mode) : Expr → Prop
  | constant {value : Rat} (hvalue : IsSmoothRatio value) : IsMergingBase mode (.number value)
  | named {name : String} (hname : name ≠ mode.imaginary) : IsMergingBase mode (.named name)

theorem pow_one_base (mode : Mode) (a : Expr) : pow mode (.number 1) a = .ok (.number 1) := by
  refine pow_of_raiseTo fun fuel => ?_
  rw [raiseTo.eq_def]
  cases a with
  | number p =>
      simp only
      rw [numberPower.eq_def]
      simp
  | _ =>
      simp only
      rw [exponential.eq_def]
      simp

/-- The powers of a constant other than one, over one reduced base. -/
theorem exists_representsPower_pow (hmode : mode.numeric = false) {value : Rat}
    (hvalue : IsSmoothRatio value) (hone : value ≠ 1) :
    ∃ root degree, root ≠ 0 ∧ root ≠ 1 ∧ IsReduced root ∧
      ∀ exponent, Canonical .proper exponent →
        RepresentsPower root [(value, exponent.linear constantMark)]
          (symbolicPart degree exponent) (pow mode (.number value) exponent) := by
  obtain ⟨root, degree, hdegree, hpow, hroot, hreduced, hreduce⟩ := exists_reduceBase value
  have hpos : 0 < root := by
    rcases hroot with rfl | hlt
    · exact hvalue.1
    · exact one_pos.trans hlt
  have hroot' : root ≠ 1 := by
    rintro rfl
    exact hone (by rw [← hpow, one_pow])
  refine ⟨root, degree, hpos.ne', hroot', hreduced, fun exponent hexponent => ?_⟩
  cases hnumber : exponent.isNumber with
  | true =>
      obtain ⟨p, rfl⟩ := exists_eq_number hnumber
      refine ((represents_pow hmode hvalue p).representsPower root).congr (fun q _ => ?_) ?_
      · simp
      · simp [symbolicPart]
  | false =>
      obtain ⟨fuel, hfuel⟩ := exists_pow_eq mode (.number value) exponent
      have hstep : raiseTo mode (fuel + 31) (.number value) exponent =
          Reduce.exponential mode (fuel + 30) (.number value) exponent := by
        rw [raiseTo.eq_def]
        cases exponent <;> first | rfl | cases hnumber
      obtain ⟨c, groups, slots, hok, hfactors, hroots⟩ := representsPower_exponential (fuel + 20)
        hmode hvalue.1.ne' hone hdegree hpow (isSmoothRatio_of_pow hdegree hpos (hpow ▸ hvalue))
        hroot' hreduced hreduce hexponent hnumber
      exact ⟨c, groups, slots, by rw [hfuel, hstep, hok, guarded_ok], hfactors, hroots⟩

theorem pow_variable {name : String} (hname : name ≠ mode.imaginary) (a : Expr) :
    pow mode (.named name) a = .ok (variablePower name a) := by
  cases hnumber : a.isNumber with
  | true =>
      obtain ⟨p, rfl⟩ := exists_eq_number hnumber
      by_cases hp : p = 0
      · subst hp
        exact pow_of_raiseTo fun fuel => by
          rw [raiseTo.eq_def]
          rfl
      · rw [variablePower_number hp]
        refine pow_of_isPlain rfl ⟨hp, fun hnamed => ?_, fun hsum => by cases hsum⟩
        simp [isNamed, named, hname] at hnamed
  | false =>
      rw [variablePower_of_not_isNumber hnumber]
      exact pow_symbolic rfl hnumber

theorem agree_multiply_pow_constant (hmode : mode.numeric = false) {value : Rat}
    (hvalue : IsSmoothRatio value) (ha : Canonical .proper a) (hb : Canonical .proper b) :
    Agree (do multiply mode (← pow mode (.number value) a) (← pow mode (.number value) b))
      (do pow mode (.number value) (← add a b)) := by
  obtain ⟨sum, hadd, hsum, hlinear⟩ := proper_add ha hb
  rw [hadd]
  by_cases hone : value = 1
  · subst hone
    rw [pow_one_base, pow_one_base]
    refine ⟨.number 1, .number 1, ?_, pow_one_base mode sum, by decide⟩
    obtain ⟨fuel, hfuel⟩ := exists_multiply_eq mode (.number 1) (.number 1)
    change multiply mode (.number 1) (.number 1) = _
    rw [hfuel, (combineFactors_number mode (fuel + 30) 1 _).1, scale_one]
  obtain ⟨root, degree, hzero, hroot, hreduced, hpow⟩ :=
    exists_representsPower_pow hmode hvalue hone
  obtain ⟨x, hx, hxpower⟩ := (hpow a ha).exists_ok
  obtain ⟨y, hy, hypower⟩ := (hpow b hb).exists_ok
  obtain ⟨z, hz, hzpower⟩ := (hpow sum hsum).exists_ok
  obtain ⟨fuel, hfuel⟩ := exists_multiply_eq mode x y
  obtain ⟨product, hproduct, hproductpower⟩ :=
    (hxpower.combineFactors (fuel + 22) hmode hzero hroot hreduced hypower).exists_ok
  refine ⟨product, z, ?_, hz, hproductpower.equals (hzpower.congr (fun q _ => ?_) ?_)⟩
  · rw [hx, hy]
    change multiply mode x y = _
    rw [hfuel, hproduct]
  · rw [hlinear, Finsupp.add_apply]
    simp
    ring
  · rw [symbolicPart, symbolicPart, symbolicPart, hlinear, Finsupp.add_apply, Finsupp.single_add,
      ← smul_add]
    congr 1
    abel

theorem agree_multiply_pow_variable {name : String} (hname : name ≠ mode.imaginary)
    (ha : Canonical .proper a) (hb : Canonical .proper b) :
    Agree (do multiply mode (← pow mode (.named name) a) (← pow mode (.named name) b))
      (do pow mode (.named name) (← add a b)) := by
  obtain ⟨sum, hadd, hsum, hlinear⟩ := proper_add ha hb
  obtain ⟨fuel, hfuel⟩ := exists_multiply_eq mode (variablePower name a) (variablePower name b)
  obtain ⟨sum', hproduct, hsum', hlinear'⟩ :=
    exists_combineFactors_variablePower (fuel + 26) hname ha hb
  refine ⟨variablePower name sum', variablePower name sum, ?_, ?_, ?_⟩
  · rw [pow_variable hname, pow_variable hname]
    change multiply mode (variablePower name a) (variablePower name b) = _
    rw [hfuel, hproduct]
  · rw [hadd]
    exact pow_variable hname sum
  · rw [equals, beq_iff_eq]
    exact signature_variablePower hsum' hsum (hlinear'.trans hlinear.symm)

/-- In exact mode the product of two powers of a positive rational without large primes, or
of a variable other than the imaginary unit, is the power to the sum of the exponents. -/
theorem agree_multiply_pow (hmode : mode.numeric = false) (hbase : IsMergingBase mode base)
    (ha : Canonical .proper a) (hb : Canonical .proper b) :
    Agree (do multiply mode (← pow mode base a) (← pow mode base b))
      (do pow mode base (← add a b)) := by
  cases hbase with
  | constant hvalue => exact agree_multiply_pow_constant hmode hvalue ha hb
  | named hname => exact agree_multiply_pow_variable hname ha hb

/-- Powers of twelve, one of them with a constant term in its exponent. -/
theorem agree_multiply_pow_twelve :
    let x := Expr.named "x"
    let sum := Expr.composite 1 1 [(x.additiveKey, x), (Expr.constantMark, .number (1 / 2))]
    Mode.exact.numeric = false ∧ IsMergingBase .exact (.number 12) ∧ Canonical .proper x ∧
      Canonical .proper sum ∧
      Agree (do multiply .exact (← pow .exact (.number 12) sum) (← pow .exact (.number 12) x))
        (do pow .exact (.number 12) (← add sum x)) := by
  intro x sum
  have hx : Canonical .proper x := .symbol one_ne_zero one_ne_zero trivial
  have hsum : Canonical .proper sum := .binomial trivial (by norm_num [Discipline.proper])
  have hbase : IsMergingBase .exact (.number 12) :=
    .constant (isSmoothRatio_of_le (by norm_num) (by decide) (by decide))
  exact ⟨rfl, hbase, hx, hsum, agree_multiply_pow rfl hbase hsum hx⟩

end Arithmetic

end ExactAlgebra
