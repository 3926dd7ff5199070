import ExactAlgebra.Proofs.Expr.Identity
import ExactAlgebra.Proofs.Expr.Slots
import ExactAlgebra.Reduce.Product

/-!
# Canonical expressions

An expression is canonical if every part of it has the shape that its class
prescribes.  A `Discipline` adds demands on the leaves and on the radicals of a
product; `Discipline.free` adds none.
-/

namespace ExactAlgebra

/-! ## Shapes -/

/-- A root of an integer above one, or a root of minus one that is neither real nor
a multiple of the imaginary unit. -/
def IsRadical (base power : Rat) : Prop :=
  (base.den = 1 ∧ 2 ≤ base ∧ 0 < power ∧ power < 1) ∨
    (base = -1 ∧ 0 < power ∧ power < 2 ∧ power.den % 2 = 0 ∧ 2 < power.den)

/-- The coefficient and exponent of a sum: an expanded sum, or one that stays a
factor. -/
def IsSum (coeff power : Rat) : Prop :=
  (coeff = 1 ∧ power = 1) ∨ (coeff ≠ 0 ∧ (power < 0 ∨ (0 < power ∧ power < 1)))

/-- Bases and exponents of the radicals among some slots. -/
def Slots.radicals (slots : Slots) : List (Rat × Rat) := (Reduce.splitRadicals slots).1

/-- Demands on canonical expressions beyond the shape of their parts. -/
structure Discipline where
  /-- Constants beside other terms of a sum. -/
  constant : Rat → Prop
  symbol : String → Rat → Prop
  call : String → List Expr → Prop
  /-- Bases and exponents of exponentials. -/
  exponential : Expr → Expr → Prop
  /-- Exponents other than one of sums, with the terms of the sum. -/
  sum : Rat → Slots → Prop
  /-- Bases and exponents of the radicals in one product. -/
  radicals : List (Rat × Rat) → Prop

namespace Discipline

/-- No further demands. -/
def free : Discipline where
  constant _ := True
  symbol _ _ := True
  call _ _ := True
  exponential _ _ := True
  sum _ _ := True
  radicals _ := True

end Discipline

/-- The slots of a sum of powers of one base. -/
structure IsPolynomial (terms : Slots) : Prop where
  two_le : 2 ≤ terms.length
  distinct : Slots.Distinct terms
  powered : ∀ slot ∈ terms, slot.2.isPowered = true
  key : ∀ slot ∈ terms, slot.1 = slot.2.exponent.key
  base : ∀ a ∈ terms, ∀ b ∈ terms, a.2.baseKey = b.2.baseKey

/-- The slots of a sum of dissimilar terms. -/
structure IsComposite (rules : Discipline) (terms : Slots) : Prop where
  two_le : 2 ≤ terms.length
  distinct : Slots.Distinct terms
  key : ∀ slot ∈ terms, slot.1 = slot.2.additiveKey
  flat : ∀ slot ∈ terms, ¬ (slot.2.group = .composite ∧ slot.2.degreePower = 1)
  constant : ∀ slot ∈ terms, ∀ value, slot.2 = .number value → rules.constant value

/-- The slots of a product. -/
structure IsProduct (rules : Discipline) (factors : Slots) : Prop where
  two_le : 2 ≤ factors.length
  distinct : Slots.Distinct factors
  key : ∀ slot ∈ factors, slot.1 = slot.2.multiplicativeKey
  coeff : ∀ slot ∈ factors, slot.2.coeff = 1
  factor : ∀ slot ∈ factors, slot.2.isFactor = true
  radicals : rules.radicals (Slots.radicals factors)

namespace Expr

/-- The base of an exponential that is no constant: a variable, a call or a sum, with
coefficient and exponent one. -/
def isPlain (node : Expr) : Bool :=
  (match node with
    | symbol .. | call .. | polynomial .. | composite .. => true
    | _ => false) && node.coeff == 1 && node.degreePower == 1

end Expr

/-- The canonical expressions that keep to a discipline. -/
inductive Canonical (rules : Discipline) : Expr → Prop
  | number (value : Rat) : Canonical rules (.number value)
  | radical {coeff base power : Rat} (hcoeff : coeff ≠ 0) (hradical : IsRadical base power)
      (hrules : rules.radicals [(base, power)]) :
      Canonical rules (.radical coeff base power)
  | symbol {coeff : Rat} {name : String} {power : Rat} (hcoeff : coeff ≠ 0)
      (hpower : power ≠ 0) (hrules : rules.symbol name power) :
      Canonical rules (.symbol coeff name power)
  | constantBase {coeff base : Rat} {exponent : Expr} (hcoeff : coeff ≠ 0) (hzero : base ≠ 0)
      (hone : base ≠ 1) (hrules : rules.exponential (.number base) exponent)
      (hexponent : Canonical rules exponent) (hnumber : exponent.isNumber = false) :
      Canonical rules (.exponential coeff (.number base) exponent)
  | plainBase {coeff : Rat} {base exponent : Expr} (hcoeff : coeff ≠ 0)
      (hplain : base.isPlain = true) (hrules : rules.exponential base exponent)
      (hbase : Canonical rules base)
      (hexponent : Canonical rules exponent) (hnumber : exponent.isNumber = false) :
      Canonical rules (.exponential coeff base exponent)
  | call {coeff : Rat} {name : String} {args : List Expr} {power : Rat} (hcoeff : coeff ≠ 0)
      (hpower : power ≠ 0) (hrules : rules.call name args)
      (hargs : ∀ arg ∈ args, Canonical rules arg) :
      Canonical rules (.call coeff name args power)
  | polynomial {coeff power : Rat} {terms : Slots} (hsum : IsSum coeff power)
      (hrules : power ≠ 1 → rules.sum power terms) (hslots : IsPolynomial terms)
      (hterms : ∀ slot ∈ terms, Canonical rules slot.2) :
      Canonical rules (.polynomial coeff power terms)
  | product {coeff : Rat} {factors : Slots} (hcoeff : coeff ≠ 0)
      (hslots : IsProduct rules factors) (hfactors : ∀ slot ∈ factors, Canonical rules slot.2) :
      Canonical rules (.product coeff 1 factors)
  | composite {coeff power : Rat} {terms : Slots} (hsum : IsSum coeff power)
      (hrules : power ≠ 1 → rules.sum power terms) (hslots : IsComposite rules terms)
      (hterms : ∀ slot ∈ terms, Canonical rules slot.2) :
      Canonical rules (.composite coeff power terms)

/-- An exponent that is rational, or canonical and no constant. -/
inductive Canonical.IsExponent (rules : Discipline) : Exponent → Prop
  | rational (value : Rat) : IsExponent rules (.rational value)
  | symbolic {node : Expr} (hnode : Canonical rules node) (hnumber : node.isNumber = false) :
      IsExponent rules (.symbolic node)

/-! ## Sums and coefficients -/

theorem IsSum.one : IsSum 1 1 := .inl ⟨rfl, rfl⟩

theorem IsSum.coeff_ne_zero {coeff power : Rat} (h : IsSum coeff power) : coeff ≠ 0 := by
  rcases h with ⟨rfl, -⟩ | ⟨h, -⟩
  · exact one_ne_zero
  · exact h

theorem IsSum.coeff_eq_one {coeff power : Rat} (h : IsSum coeff power) (hpower : power = 1) :
    coeff = 1 := by
  rcases h with ⟨h, -⟩ | ⟨-, h | h⟩
  · exact h
  · exact absurd h (by rw [hpower]; norm_num)
  · exact absurd h.2 (by rw [hpower]; norm_num)

theorem IsSum.withCoeff {coeff power : Rat} (h : IsSum coeff power) (hpower : power ≠ 1)
    {c : Rat} (hc : c ≠ 0) : IsSum c power := by
  rcases h with ⟨-, h⟩ | ⟨-, h⟩
  · exact absurd h hpower
  · exact .inr ⟨hc, h⟩

namespace Canonical

variable {rules : Discipline} {node : Expr} {terms : Slots}

theorem expandedPolynomial (hslots : IsPolynomial terms)
    (hterms : ∀ slot ∈ terms, Canonical rules slot.2) : Canonical rules (.polynomial 1 1 terms) :=
  .polynomial .one (absurd rfl) hslots hterms

theorem expandedComposite (hslots : IsComposite rules terms)
    (hterms : ∀ slot ∈ terms, Canonical rules slot.2) : Canonical rules (.composite 1 1 terms) :=
  .composite .one (absurd rfl) hslots hterms

/-- A variable plus a constant. -/
theorem binomial {name : String} {value : Rat} (hname : rules.symbol name 1)
    (hvalue : rules.constant value) :
    Canonical rules (.composite 1 1
      [((Expr.named name).additiveKey, .named name), (Expr.constantMark, .number value)]) := by
  refine .expandedComposite
    { two_le := le_rfl
      distinct := by simp [Expr.named, Expr.additiveKey, Expr.baseKey, Expr.constantMark]
      key := by simp [Expr.additiveKey]
      flat := by simp [Expr.named, Expr.group]
      constant := by simpa [Expr.named] using hvalue } ?_
  simpa using ⟨Canonical.symbol one_ne_zero one_ne_zero hname, Canonical.number value⟩

theorem coeff_ne_zero (h : Canonical rules node) (hnumber : node.isNumber = false) :
    node.coeff ≠ 0 := by
  cases h with
  | number => simp [Expr.isNumber] at hnumber
  | polynomial hsum => exact hsum.coeff_ne_zero
  | composite hsum => exact hsum.coeff_ne_zero
  | _ => assumption

theorem coeff_of_isExpandedSum (h : Canonical rules node) (hsum : node.isExpandedSum = true) :
    node.coeff = 1 := by
  cases h <;> simp [Expr.isExpandedSum, Expr.isSum, Expr.degreePower] at hsum
  case polynomial hshape _ _ _ => exact hshape.coeff_eq_one hsum
  case composite hshape _ _ _ => exact hshape.coeff_eq_one hsum

/-- The coefficient of a term is free. -/
theorem withCoeff (h : Canonical rules node) (hsum : node.isExpandedSum = false) {c : Rat}
    (hc : c ≠ 0) : Canonical rules (node.withCoeff c) := by
  cases h with
  | number => exact .number c
  | radical _ hradical hrules => exact .radical hc hradical hrules
  | symbol _ hpower hrules => exact .symbol hc hpower hrules
  | constantBase _ hzero hone hrules hexponent hnumber =>
      exact .constantBase hc hzero hone hrules hexponent hnumber
  | plainBase _ hplain hrules hbase hexponent hnumber =>
      exact .plainBase hc hplain hrules hbase hexponent hnumber
  | call _ hpower hrules hargs => exact .call hc hpower hrules hargs
  | polynomial hshape hrules hslots hterms =>
      simp [Expr.isExpandedSum, Expr.isSum, Expr.degreePower] at hsum
      exact .polynomial (hshape.withCoeff hsum hc) hrules hslots hterms
  | product _ hslots hfactors => exact .product hc hslots hfactors
  | composite hshape hrules hslots hterms =>
      simp [Expr.isExpandedSum, Expr.isSum, Expr.degreePower] at hsum
      exact .composite (hshape.withCoeff hsum hc) hrules hslots hterms

theorem withCoeff_one (h : Canonical rules node) : Canonical rules (node.withCoeff 1) := by
  cases hsum : node.isExpandedSum with
  | false => exact h.withCoeff hsum one_ne_zero
  | true => rwa [Expr.withCoeff_of_coeff_eq (h.coeff_of_isExpandedSum hsum)]

/-- The children of a sum or product are canonical. -/
theorem slots (h : Canonical rules node) : ∀ slot ∈ node.slots, Canonical rules slot.2 := by
  cases h with
  | polynomial _ _ _ hterms => exact hterms
  | product _ _ hfactors => exact hfactors
  | composite _ _ _ hterms => exact hterms
  | _ => exact fun slot hslot => absurd hslot List.not_mem_nil

end Canonical

end ExactAlgebra
