import ExactAlgebra.Proofs.Value.Tree

/-!
# Rational functions at a point

An assignment of rationals to the variables gives a tree of field operations a value
wherever no divisor and no base of a power without positive exponent vanishes.
There the exact operations give a result, in which no base of a negative power
vanishes, with the value of the tree.
-/

namespace ExactAlgebra

variable {mode : Mode} {assignment : String → ℚ}

/-! ## Values -/

namespace Tree

/-- The value of a tree at an assignment. -/
def valueAt (assignment : String → ℚ) : Tree → ℚ
  | .constant value => value
  | .variable name => assignment name
  | .power name exponent => assignment name ^ exponent.num
  | .add a b => a.valueAt assignment + b.valueAt assignment
  | .subtract a b => a.valueAt assignment - b.valueAt assignment
  | .negate a => -a.valueAt assignment
  | .multiply a b => a.valueAt assignment * b.valueAt assignment
  | .divide a b => a.valueAt assignment / b.valueAt assignment
  | .raise a exponent => a.valueAt assignment ^ exponent

/-- No divisor and no base of a power without positive exponent has the value zero; the
imaginary unit and fractional powers do not occur. -/
def DefinedAt (mode : Mode) (assignment : String → ℚ) : Tree → Prop
  | .constant _ => True
  | .variable name => name ≠ mode.imaginary
  | .power .. => False
  | .add a b | .subtract a b | .multiply a b =>
      a.DefinedAt mode assignment ∧ b.DefinedAt mode assignment
  | .negate a => a.DefinedAt mode assignment
  | .divide a b =>
      a.DefinedAt mode assignment ∧ b.DefinedAt mode assignment ∧ b.valueAt assignment ≠ 0
  | .raise a exponent =>
      a.DefinedAt mode assignment ∧ (exponent ≤ 0 → a.valueAt assignment ≠ 0)

end Tree

namespace Expr

mutual

/-- The value of an expression with integral powers at an assignment. -/
def valueAt (assignment : String → ℚ) : Expr → ℚ
  | .number value => value
  | .symbol coeff name power => coeff * assignment name ^ power.num
  | .polynomial coeff power terms => coeff * sumAt assignment terms ^ power.num
  | .product coeff power factors => coeff * productAt assignment factors ^ power.num
  | .composite coeff power terms => coeff * sumAt assignment terms ^ power.num
  | _ => 0

def sumAt (assignment : String → ℚ) : List (Key × Expr) → ℚ
  | [] => 0
  | (_, child) :: rest => child.valueAt assignment + sumAt assignment rest

def productAt (assignment : String → ℚ) : List (Key × Expr) → ℚ
  | [] => 1
  | (_, child) :: rest => child.valueAt assignment * productAt assignment rest

end

mutual

/-- Every power is integral, and no base of a negative power has the value zero. -/
def DefinedAt (assignment : String → ℚ) : Expr → Prop
  | .number _ => True
  | .symbol _ name power => power.den = 1 ∧ (power < 0 → assignment name ≠ 0)
  | .polynomial _ power terms =>
      power.den = 1 ∧ (power < 0 → sumAt assignment terms ≠ 0) ∧ SlotsDefinedAt assignment terms
  | .product _ power factors => power.den = 1 ∧
      (power < 0 → productAt assignment factors ≠ 0) ∧ SlotsDefinedAt assignment factors
  | .composite _ power terms =>
      power.den = 1 ∧ (power < 0 → sumAt assignment terms ≠ 0) ∧ SlotsDefinedAt assignment terms
  | _ => False

def SlotsDefinedAt (assignment : String → ℚ) : List (Key × Expr) → Prop
  | [] => True
  | (_, child) :: rest => child.DefinedAt assignment ∧ SlotsDefinedAt assignment rest

end

theorem slotsDefinedAt_iff {slots : Slots} :
    SlotsDefinedAt assignment slots ↔ ∀ slot ∈ slots, slot.2.DefinedAt assignment := by
  induction slots with
  | nil => simp [SlotsDefinedAt]
  | cons slot rest ih => rw [SlotsDefinedAt, ih, List.forall_mem_cons]

end Expr

/-! ## The interpretation by an assignment -/

theorem num_add_of_den {p q : ℚ} (hp : p.den = 1) (hq : q.den = 1) :
    (p + q).den = 1 ∧ (p + q).num = p.num + q.num := by
  have hp' : (p.num : ℚ) = p := (Rat.den_eq_one_iff p).mp hp
  have hq' : (q.num : ℚ) = q := (Rat.den_eq_one_iff q).mp hq
  have hsum : p + q = ((p.num + q.num : ℤ) : ℚ) := by
    push_cast
    rw [hp', hq']
  rw [hsum]
  exact ⟨Rat.den_intCast _, Rat.num_intCast _⟩

/-- Integral powers of the values of the variables. -/
def Interpretation.ofAssignment (mode : Mode) (assignment : String → ℚ) :
    Interpretation mode ℚ where
  valid name p := name ≠ mode.imaginary ∧ p.den = 1 ∧ (p < 0 → assignment name ≠ 0)
  symbol name p := assignment name ^ p.num
  unit x := x ≠ 0
  raise x p := x ^ p.num
  ne_imaginary h := h.1
  symbol_add := by
    rintro name p q ⟨hname, hp, hpneg⟩ ⟨-, hq, hqneg⟩ hne
    obtain ⟨hden, hnum⟩ := num_add_of_den hp hq
    refine ⟨⟨hname, hden, fun hneg => ?_⟩, ?_⟩
    · by_cases hlt : p < 0
      · exact hpneg hlt
      · exact hqneg (by linarith [not_lt.mp hlt])
    · rw [hnum]
      refine zpow_add' (.inr (.inl ?_))
      rw [← hnum]
      exact Rat.num_ne_zero.mpr hne
  symbol_cancel := by
    rintro name p q ⟨-, hp, hpneg⟩ ⟨-, hq, hqneg⟩ hzero
    obtain ⟨-, hnum⟩ := num_add_of_den hp hq
    rw [hzero, Rat.num_zero] at hnum
    by_cases hname : assignment name = 0
    · have hpnonneg : 0 ≤ p := not_lt.mp fun hneg => hpneg hneg hname
      have hqnonneg : 0 ≤ q := not_lt.mp fun hneg => hqneg hneg hname
      have hpzero : p = 0 := by linarith
      have hqzero : q = 0 := by linarith
      simp [hpzero, hqzero]
    · rw [← zpow_add₀ hname, ← hnum, zpow_zero]
  symbol_neg := by
    rintro name p ⟨hname, hp, -⟩ hunit
    refine ⟨hname, by simpa using hp, fun hneg hzero => hunit ?_⟩
    have hpos : 0 < p.num := Rat.num_pos.mpr (by linarith)
    rw [hzero, zero_zpow _ hpos.ne']
  unit_mul h := mul_ne_zero_iff.mp h
  raise_one x := by
    rw [Rat.num_one, zpow_one]
  raise_neg := by
    intro x hx k _
    rw [Rat.num_neg_eq_neg_num, Rat.num_natCast, zpow_neg, zpow_natCast]
    exact inv_mul_cancel₀ (pow_ne_zero k hx)

open ExactAlgebra.Expr

namespace Interpretation

theorem sumAt_eq {slots : Slots} (h : ∀ slot ∈ slots,
      (ofAssignment mode assignment).value slot.2 = slot.2.valueAt assignment) :
    sumAt assignment slots = (ofAssignment mode assignment).sumValue slots := by
  induction slots with
  | nil => rw [sumAt, sumValue]
  | cons slot rest ih =>
      obtain ⟨hslot, hrest⟩ := List.forall_mem_cons.mp h
      rw [sumAt, sumValue, hslot, ih hrest]

theorem productAt_eq {slots : Slots} (h : ∀ slot ∈ slots,
      (ofAssignment mode assignment).value slot.2 = slot.2.valueAt assignment) :
    productAt assignment slots = (ofAssignment mode assignment).productValue slots := by
  induction slots with
  | nil => rw [productAt, productValue]
  | cons slot rest ih =>
      obtain ⟨hslot, hrest⟩ := List.forall_mem_cons.mp h
      rw [productAt, productValue, hslot, ih hrest]

theorem value_ofAssignment {node : Expr} (h : Canonical (ofAssignment mode assignment).rules node) :
    (ofAssignment mode assignment).value node = node.valueAt assignment := by
  induction node using slots_induction with
  | step node ih =>
      have hslots := fun slot hslot => ih slot hslot (h.slots slot hslot)
      have hsum := sumAt_eq hslots
      have hproduct := productAt_eq hslots
      cases h with
      | number => rw [value_number, Expr.valueAt, Algebra.algebraMap_self_apply]
      | radical _ _ hrules => cases hrules
      | constantBase _ _ _ hrules => exact hrules.elim
      | plainBase _ _ hrules => exact hrules.elim
      | call _ _ hrules => exact hrules.elim
      | symbol =>
          rw [value_symbol, Expr.valueAt, smul_eq_mul]
          rfl
      | polynomial =>
          simp only [slots] at hsum
          rw [value_polynomial, Expr.valueAt, smul_eq_mul, hsum]
          rfl
      | product =>
          simp only [slots] at hproduct
          rw [value_product, Expr.valueAt, smul_eq_mul, Rat.num_one, zpow_one, hproduct]
      | composite =>
          simp only [slots] at hsum
          rw [value_composite, Expr.valueAt, smul_eq_mul, hsum]
          rfl

theorem definedAt_of_canonical {node : Expr}
    (h : Canonical (ofAssignment mode assignment).rules node) : node.DefinedAt assignment := by
  induction node using slots_induction with
  | step node ih =>
      have hslots := slotsDefinedAt_iff.mpr fun slot hslot => ih slot hslot (h.slots slot hslot)
      have hsum := sumAt_eq fun slot hslot => value_ofAssignment (h.slots slot hslot)
      have hpower : ∀ {power : ℚ},
          (power ≠ 1 → (ofAssignment mode assignment).rules.sum power node.slots) →
          power.den = 1 ∧ (power < 0 → sumAt assignment node.slots ≠ 0) := by
        intro power hrules
        by_cases hone : power = 1
        · subst hone
          exact ⟨rfl, fun hneg => absurd hneg (by norm_num)⟩
        · obtain ⟨k, -, rfl, hunit⟩ := hrules hone
          exact ⟨by simp, fun _ => hsum ▸ hunit⟩
      cases h with
      | number => trivial
      | radical _ _ hrules => cases hrules
      | constantBase _ _ _ hrules => exact hrules.elim
      | plainBase _ _ hrules => exact hrules.elim
      | call _ _ hrules => exact hrules.elim
      | symbol _ _ hrules => exact hrules.2
      | polynomial _ hrules => exact ⟨(hpower hrules).1, (hpower hrules).2, hslots⟩
      | product => exact ⟨rfl, fun hneg => absurd hneg (by norm_num), hslots⟩
      | composite _ hrules => exact ⟨(hpower hrules).1, (hpower hrules).2, hslots⟩

theorem isIntegralPower_zpow {x : ℚ} {m : ℤ} (hx : m ≤ 0 → x ≠ 0) :
    IsIntegralPower x m (x ^ m) := by
  obtain ⟨k, rfl | rfl⟩ := m.eq_nat_or_neg
  · rw [IsIntegralPower.natCast_iff, zpow_natCast]
  · rw [IsIntegralPower.neg_natCast_iff, zpow_neg, zpow_natCast]
    exact inv_mul_cancel₀ (pow_ne_zero k (hx (by omega)))

theorem denotes_valueAt {tree : Tree} (h : tree.DefinedAt mode assignment) :
    (ofAssignment mode assignment).Denotes tree (tree.valueAt assignment) := by
  induction tree with
  | constant value => exact .constant value
  | «variable» name =>
      have hone : (ofAssignment mode assignment).symbol name 1 = assignment name := by
        change assignment name ^ (1 : ℚ).num = assignment name
        rw [Rat.num_one, zpow_one]
      have hvalid : (ofAssignment mode assignment).valid name 1 :=
        ⟨h, rfl, fun hneg => absurd hneg (by norm_num)⟩
      rw [Tree.valueAt, ← hone]
      exact .variable hvalid
  | power => exact h.elim
  | add a b iha ihb => exact .add (iha h.1) (ihb h.2)
  | subtract a b iha ihb => exact .subtract (iha h.1) (ihb h.2)
  | negate a iha => exact .negate (iha h)
  | multiply a b iha ihb => exact .multiply (iha h.1) (ihb h.2)
  | divide a b iha ihb =>
      obtain ⟨ha, hb, hne⟩ := h
      rw [Tree.valueAt, div_eq_mul_inv]
      exact .divide (iha ha) (ihb hb) hne (inv_mul_cancel₀ hne)
  | raise a exponent iha =>
      obtain ⟨ha, hne⟩ := h
      exact .raise (iha ha) (fun hneg => hne hneg.le) (fun hzero => hne hzero.le)
        (isIntegralPower_zpow hne)

end Interpretation

/-- Where a tree of field operations has a value, the exact operations give a result with
this value, in which no base of a negative power vanishes. -/
theorem Tree.exists_evaluate_valueAt {mode : Mode} {assignment : String → ℚ} {tree : Tree}
    (h : tree.DefinedAt mode assignment) :
    ∃ node, tree.evaluate mode = .ok node ∧ node.DefinedAt assignment ∧
      node.valueAt assignment = tree.valueAt assignment := by
  obtain ⟨node, hok, hnode, hvalue⟩ :=
    (Interpretation.ofAssignment mode assignment).results_evaluate
      (Interpretation.denotes_valueAt h)
  refine ⟨node, hok, Interpretation.definedAt_of_canonical hnode, ?_⟩
  rw [← Interpretation.value_ofAssignment hnode, hvalue]

theorem Tree.exists_evaluate_valueAt_quotient :
    let sum := Tree.add (.variable "x") (.constant 1)
    let tree := Tree.divide (.raise sum (-2)) (.multiply sum (.variable "y"))
    tree.DefinedAt .exact (fun _ => 2) ∧ ∃ node, tree.evaluate .exact = .ok node ∧
      node.DefinedAt (fun _ => 2) ∧ node.valueAt (fun _ => 2) = 1 / 54 := by
  have hdefined : (Tree.divide (.raise (.add (.variable "x") (.constant 1)) (-2)) (.multiply
      (.add (.variable "x") (.constant 1)) (.variable "y"))).DefinedAt .exact fun _ => 2 := by
    norm_num [Tree.DefinedAt, Tree.valueAt, Mode.exact]
    decide
  obtain ⟨node, hok, hnode, hvalue⟩ := Tree.exists_evaluate_valueAt hdefined
  refine ⟨hdefined, node, hok, hnode, ?_⟩
  rw [hvalue]
  norm_num [Tree.valueAt]

end ExactAlgebra
