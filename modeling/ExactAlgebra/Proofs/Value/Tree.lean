import ExactAlgebra.Proofs.Canonical.Arithmetic
import ExactAlgebra.Proofs.Value.Power

/-!
# Values of arithmetic trees

A tree of field operations over constants and variables is evaluated with the exact
operations.  Wherever the tree denotes an element of an algebra, the evaluation gives
a result with that value.
-/

namespace ExactAlgebra

open ExactAlgebra.Expr

/-- A tree of field operations over constants, variables and their rational powers. -/
inductive Tree where
  | constant (value : ℚ)
  | variable (name : String)
  | power (name : String) (exponent : ℚ)
  | add (a b : Tree)
  | subtract (a b : Tree)
  | negate (a : Tree)
  | multiply (a b : Tree)
  | divide (a b : Tree)
  | raise (a : Tree) (exponent : ℤ)

namespace Tree

/-- The outcome of the exact operations on a tree. -/
def evaluate (mode : Mode) : Tree → Except Fault Expr
  | .constant value => .ok (.number value)
  | .variable name => .ok (.named name)
  | .power name exponent => Arithmetic.pow mode (.named name) (.number exponent)
  | .add a b => do Arithmetic.add (← a.evaluate mode) (← b.evaluate mode)
  | .subtract a b => do Arithmetic.subtract (← a.evaluate mode) (← b.evaluate mode)
  | .negate a => do return Arithmetic.negate (← a.evaluate mode)
  | .multiply a b => do Arithmetic.multiply mode (← a.evaluate mode) (← b.evaluate mode)
  | .divide a b => do Arithmetic.divide mode (← a.evaluate mode) (← b.evaluate mode)
  | .raise a exponent => do Arithmetic.pow mode (← a.evaluate mode) (.number exponent)

end Tree

namespace Interpretation

open Reduce

variable {mode : Mode} {A : Type*} [CommRing A] [Algebra ℚ A] (I : Interpretation mode A)
  {a b node : Expr} {x y z : A} {m : ℤ}

/-! ## Operations -/

theorem results_negate (ha : Canonical I.rules a) :
    I.Results (.ok (Arithmetic.negate a)) (-I.value a) := by
  refine ⟨_, rfl, canonical_scale_any I.rules_hereditary (-1) ha, ?_⟩
  rw [Arithmetic.negate, I.value_scale (-1) ha, neg_smul, one_smul]

theorem results_subtract (ha : Canonical I.rules a) (hb : Canonical I.rules b) :
    I.Results (Arithmetic.subtract a b) (I.value a - I.value b) := by
  obtain ⟨_, ⟨⟩, hnegate, hvalue⟩ := I.results_negate hb
  have hplus := I.results_plus ha hnegate
  rwa [hvalue, ← sub_eq_add_neg] at hplus

theorem results_multiply (ha : Canonical I.rules a) (hb : Canonical I.rules b) :
    I.Results (Arithmetic.multiply mode a b) (I.value a * I.value b) := by
  obtain ⟨fuel, hfuel⟩ := Arithmetic.exists_multiply_eq mode a b
  rw [hfuel]
  exact I.results_combineFactors (fuel + 6) ha hb

theorem raises_pow [Nontrivial A] (ha : Canonical I.rules a) (hunit : m < 0 → I.unit (I.value a))
    (hzero : m = 0 → I.value a ≠ 0) :
    I.Raises (Arithmetic.pow mode a (.number m)) (I.value a) m := by
  obtain ⟨fuel, hfuel⟩ := Arithmetic.exists_pow_eq mode a (.number m)
  obtain ⟨node, hok, hnode, hvalue⟩ := I.raises_raiseTo fuel ha m hunit hzero
  refine ⟨node, ?_, hnode, hvalue⟩
  rw [hfuel, hok, Arithmetic.guarded_ok]

/-- Expressions of one content, or two constants. -/
theorem results_quotient_of_content [Nontrivial A] (ha : Canonical I.rules a)
    (hb : Canonical I.rules b) (hunit : I.unit (I.value b)) (hinverse : z * I.value b = 1)
    (hcontent : ((a.isNumber && b.isNumber) || a.content == b.content) = true) :
    I.Results (Arithmetic.quotient mode a b) (I.value a * z) := by
  have hcontents : a.content = b.content := by
    rcases Bool.or_eq_true_iff.mp hcontent with hnumbers | hcontents
    · obtain ⟨hanumber, hbnumber⟩ := Bool.and_eq_true_iff.mp hnumbers
      obtain ⟨c, rfl⟩ := eq_number_of_isNumber hanumber
      obtain ⟨d, rfl⟩ := eq_number_of_isNumber hbnumber
      rfl
    · exact beq_iff_eq.mp hcontents
  have hbcoeff : b.coeff ≠ 0 := by
    intro hzero
    refine I.ne_zero_of_unit hunit ?_
    rw [I.value_eq_smul b, hzero, zero_smul]
  refine ⟨.number (a.coeff / b.coeff), ?_, .number _, ?_⟩
  · rw [Arithmetic.quotient, if_pos hcontent, Strict.divide, if_neg hbcoeff]
    rfl
  · have hscaled : I.value a = (a.coeff / b.coeff) • I.value b := by
      rw [I.value_eq_smul a, I.value_eq_smul b, I.value_eq_of_content ha hb hcontents, smul_smul,
        div_mul_cancel₀ _ hbcoeff]
    rw [value_number, hscaled, smul_mul_assoc, mul_comm, hinverse,
      Algebra.algebraMap_eq_smul_one]

theorem results_quotient [Nontrivial A] (ha : Canonical I.rules a) (hb : Canonical I.rules b)
    (hunit : I.unit (I.value b)) (hinverse : z * I.value b = 1) :
    I.Results (Arithmetic.quotient mode a b) (I.value a * z) := by
  cases hcontent : (a.isNumber && b.isNumber) || a.content == b.content with
  | true => exact I.results_quotient_of_content ha hb hunit hinverse hcontent
  | false =>
      obtain ⟨fuel, hfuel⟩ := Arithmetic.exists_settled_eq
        fun depth => raiseTo mode depth b (.number (-1))
      have hraise :
          I.Raises (raiseTo mode (fuel + 31) b (.number ((-1 : ℤ) : ℚ))) (I.value b) (-1) :=
        I.raises_raiseTo fuel hb (-1) (fun _ => hunit) (fun h => absurd h (by omega))
      obtain ⟨inverse, hok, hcanonical, hpower⟩ := hraise
      have hone : ((-1 : ℤ) : ℚ) = -1 := by norm_num
      rw [hone] at hok
      have hvalue : I.value inverse = z := by
        have hleft : I.value inverse * I.value b ^ 1 = 1 :=
          IsIntegralPower.neg_natCast_iff.mp hpower
        rw [pow_one] at hleft
        exact left_inv_eq_right_inv hleft (by rw [mul_comm, hinverse])
      have hproduct := I.results_multiply ha hcanonical
      rw [hvalue] at hproduct
      rw [Arithmetic.quotient, hcontent, if_neg (by simp), hfuel, hok]
      exact hproduct

theorem results_divide [Nontrivial A] (ha : Canonical I.rules a) (hb : Canonical I.rules b)
    (hunit : I.unit (I.value b)) (hinverse : z * I.value b = 1) :
    I.Results (Arithmetic.divide mode a b) (I.value a * z) := by
  obtain ⟨node, hok, hnode, hvalue⟩ := I.results_quotient ha hb hunit hinverse
  refine ⟨node, ?_, hnode, hvalue⟩
  rw [Arithmetic.divide, hok, Arithmetic.guarded_ok]

/-! ## Trees -/

/-- The elements that trees denote. -/
inductive Denotes : Tree → A → Prop
  | constant (value : ℚ) : Denotes (.constant value) (algebraMap ℚ A value)
  | variable {name : String} (hvalid : I.valid name 1) :
      Denotes (.variable name) (I.symbol name 1)
  | power {name : String} {exponent : ℚ} (hexponent : exponent ≠ 0)
      (hvalid : I.valid name exponent) :
      Denotes (.power name exponent) (I.symbol name exponent)
  | add {a b : Tree} {x y : A} (ha : Denotes a x) (hb : Denotes b y) :
      Denotes (.add a b) (x + y)
  | subtract {a b : Tree} {x y : A} (ha : Denotes a x) (hb : Denotes b y) :
      Denotes (.subtract a b) (x - y)
  | negate {a : Tree} {x : A} (ha : Denotes a x) : Denotes (.negate a) (-x)
  | multiply {a b : Tree} {x y : A} (ha : Denotes a x) (hb : Denotes b y) :
      Denotes (.multiply a b) (x * y)
  | divide {a b : Tree} {x y z : A} (ha : Denotes a x) (hb : Denotes b y) (hunit : I.unit y)
      (hinverse : z * y = 1) : Denotes (.divide a b) (x * z)
  | raise {a : Tree} {x y : A} {exponent : ℤ} (ha : Denotes a x)
      (hunit : exponent < 0 → I.unit x) (hzero : exponent = 0 → x ≠ 0)
      (hpower : IsIntegralPower x exponent y) : Denotes (.raise a exponent) y

theorem pow_named {name : String} {p : ℚ} (hname : name ≠ mode.imaginary) (hp : p ≠ 0) :
    Arithmetic.pow mode (.named name) (.number p) = .ok (.symbol 1 name p) := by
  obtain ⟨fuel, hfuel⟩ := Arithmetic.exists_pow_eq mode (.named name) (.number p)
  have hraise : raiseTo mode (fuel + 31) (.named name) (.number p) = .ok (.symbol 1 name p) := by
    rw [raiseTo.eq_def]
    simp [named, hp, multiplyPowers, Expr.exponent, degreePower, baseOf, withCoeff, withPower,
      raiseBase_symbol hname hp, Expr.coeff, bind, Except.bind, pure, Except.pure]
  rw [hfuel, hraise, Arithmetic.guarded_ok]

theorem canonical_symbol {name : String} {p : ℚ} (hp : p ≠ 0) (hvalid : I.valid name p) :
    Canonical I.rules (.symbol 1 name p) := .symbol one_ne_zero hp hvalid

/-- The evaluation of a tree that denotes an element gives a result with that value. -/
theorem results_evaluate [Nontrivial A] {tree : Tree} (h : I.Denotes tree x) :
    I.Results (tree.evaluate mode) x := by
  induction h with
  | constant value => exact ⟨_, rfl, .number value, I.value_number value⟩
  | «variable» hvalid =>
      refine ⟨_, rfl, I.canonical_symbol one_ne_zero hvalid, ?_⟩
      rw [named, value_symbol, one_smul]
  | power hexponent hvalid =>
      refine ⟨_, pow_named (I.ne_imaginary hvalid) hexponent,
        I.canonical_symbol hexponent hvalid, ?_⟩
      rw [value_symbol, one_smul]
  | add _ _ iha ihb =>
      obtain ⟨a, haok, ha, rfl⟩ := iha
      obtain ⟨b, hbok, hb, rfl⟩ := ihb
      simp only [Tree.evaluate, haok, hbok, bind, Except.bind]
      exact I.results_plus ha hb
  | subtract _ _ iha ihb =>
      obtain ⟨a, haok, ha, rfl⟩ := iha
      obtain ⟨b, hbok, hb, rfl⟩ := ihb
      simp only [Tree.evaluate, haok, hbok, bind, Except.bind]
      exact I.results_subtract ha hb
  | negate _ iha =>
      obtain ⟨a, haok, ha, rfl⟩ := iha
      simp only [Tree.evaluate, haok, bind, Except.bind]
      exact I.results_negate ha
  | multiply _ _ iha ihb =>
      obtain ⟨a, haok, ha, rfl⟩ := iha
      obtain ⟨b, hbok, hb, rfl⟩ := ihb
      simp only [Tree.evaluate, haok, hbok, bind, Except.bind]
      exact I.results_multiply ha hb
  | divide _ _ hunit hinverse iha ihb =>
      obtain ⟨a, haok, ha, rfl⟩ := iha
      obtain ⟨b, hbok, hb, rfl⟩ := ihb
      simp only [Tree.evaluate, haok, hbok, bind, Except.bind]
      exact I.results_divide ha hb hunit hinverse
  | raise _ hunit hzero hpower iha =>
      obtain ⟨a, haok, ha, rfl⟩ := iha
      simp only [Tree.evaluate, haok, bind, Except.bind]
      obtain ⟨node, hok, hnode, hvalue⟩ := I.raises_pow ha hunit hzero
      exact ⟨node, hok, hnode, hvalue.unique hpower⟩

end Interpretation

end ExactAlgebra
