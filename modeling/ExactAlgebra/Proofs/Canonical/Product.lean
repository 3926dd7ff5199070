import ExactAlgebra.Proofs.Canonical.Radical
import ExactAlgebra.Proofs.Canonical.Sum

/-!
# Products and powers of canonical expressions

Every operation on canonical expressions that gives a result gives a canonical one,
provided that the discipline admits what the operations build.  The operations call
each other with less fuel, so one induction on the fuel covers them all.
-/

namespace ExactAlgebra

open Reduce

/-! ## Admissible disciplines -/

/-- A discipline that allows what is left of a sum or product. -/
structure Discipline.Hereditary (rules : Discipline) : Prop where
  constant : ∀ value, value ≠ 0 → rules.constant value
  nothing : rules.radicals []
  sublist : ∀ {radicals radicals' : List (Rat × Rat)}, radicals'.Sublist radicals →
    rules.radicals radicals → rules.radicals radicals'

/-- A discipline that the operations of a mode keep to. -/
structure Discipline.Admissible (mode : Mode) (rules : Discipline) : Prop
    extends rules.Hereditary where
  symbol : ∀ {name power power'}, rules.symbol name power → power' ≠ 0 →
    (name = mode.imaginary → Ratio.isInteger power' = true → power' = 1) →
    rules.symbol name power'
  imaginary : rules.symbol mode.imaginary 1
  constantBase : ∀ {base exponent}, base ≠ 0 → base ≠ 1 →
    constantTerm (reduceBase base exponent).2 = 0 →
    rules.exponential (.number (reduceBase base exponent).1) (reduceBase base exponent).2
  plainBase : ∀ {base exponent}, base.isPlain = true → rules.exponential base exponent
  sum : ∀ {power terms}, power < 0 ∨ (0 < power ∧ power < 1) → rules.sum power terms
  form : ∀ {radicals form roots}, (∀ radical ∈ radicals, IsFactorable radical.1) →
    combineRadicals mode radicals = .ok form → form.factors = roots.map radicalOf →
    rules.radicals roots

theorem Discipline.free_hereditary : Discipline.free.Hereditary := by
  constructor <;> intros <;> trivial

theorem Discipline.free_admissible (mode : Mode) : Discipline.free.Admissible mode := by
  constructor
  case toHereditary => exact free_hereditary
  all_goals
    intros
    trivial

/-! ## Bases and exponents -/

/-- What a power is taken of: a constant, a variable, a call, a sum, or a product
with coefficient one. -/
inductive Expr.IsBase : Expr → Prop
  | number (value : Rat) : IsBase (.number value)
  | plain {node : Expr} (h : node.isPlain = true) : IsBase node
  | product (factors : Slots) : IsBase (.product 1 1 factors)

section

variable {mode : Mode} {rules : Discipline} {node : Expr} {power : Exponent}

theorem Canonical.isBase_baseOf (h : Canonical rules node) : node.baseOf.IsBase := by
  cases h with
  | number => exact .number _
  | radical => exact .number _
  | constantBase => exact .number _
  | plainBase _ hplain => exact .plain hplain
  | product => exact .product _
  | symbol | call | polynomial | composite =>
      exact .plain (by simp [Expr.isPlain, Expr.baseOf, Expr.withCoeff, Expr.withPower,
        Expr.coeff, Expr.degreePower])

theorem Canonical.baseOf (hrules : rules.Admissible mode) (h : Canonical rules node) :
    Canonical rules node.baseOf := by
  cases h with
  | number => exact .number _
  | radical => exact .number _
  | constantBase => exact .number _
  | plainBase _ _ _ hbase => exact hbase
  | symbol _ _ hsymbol =>
      exact .symbol one_ne_zero one_ne_zero
        (hrules.symbol hsymbol one_ne_zero fun _ _ => rfl)
  | call _ _ hcall hargs => exact .call one_ne_zero one_ne_zero hcall hargs
  | polynomial _ _ hslots hterms => exact .expandedPolynomial hslots hterms
  | product _ hslots hfactors => exact .product one_ne_zero hslots hfactors
  | composite _ _ hslots hterms => exact .expandedComposite hslots hterms

theorem Canonical.exponent (h : Canonical rules node) :
    Canonical.IsExponent rules node.exponent := by
  cases h with
  | constantBase _ _ _ _ hexponent hnumber => exact .symbolic hexponent hnumber
  | plainBase _ _ _ _ hexponent hnumber => exact .symbolic hexponent hnumber
  | _ => exact .rational _

namespace Reduce

theorem canonical_asNode (h : Canonical.IsExponent rules power) :
    Canonical rules (asNode power) := by
  cases h with
  | rational => exact .number _
  | symbolic hnode => exact hnode

theorem isExponent_asExponent (h : Canonical rules node) :
    Canonical.IsExponent rules (asExponent node) := by
  cases hnumber : node.isNumber with
  | true =>
      obtain ⟨value, rfl⟩ : ∃ value, node = .number value := by
        cases node <;> simp_all [Expr.isNumber]
      exact .rational value
  | false =>
      have : asExponent node = .symbolic node := by
        cases node <;> first | rfl | simp [Expr.isNumber] at hnumber
      exact this ▸ .symbolic h hnumber

theorem asExponent_asNode (h : Canonical.IsExponent rules power) :
    asExponent (asNode power) = power := by
  cases h with
  | rational => rfl
  | symbolic _ hnumber =>
      rename_i node _
      cases node <;> first | rfl | simp [Expr.isNumber] at hnumber

end Reduce

end

/-! ## Slots of products -/

/-- Slots of factors, however many. -/
structure IsProductPart (rules : Discipline) (factors : Slots) : Prop where
  distinct : Slots.Distinct factors
  key : ∀ slot ∈ factors, slot.1 = slot.2.multiplicativeKey
  coeff : ∀ slot ∈ factors, slot.2.coeff = 1
  factor : ∀ slot ∈ factors, slot.2.isFactor = true
  radicals : rules.radicals (Slots.radicals factors)

section

variable {mode : Mode} {rules : Discipline} {factors : Slots} {factor : Expr} {key : Key}

theorem Slots.radicals_append (slots slots' : Slots) :
    Slots.radicals (slots ++ slots') = Slots.radicals slots ++ Slots.radicals slots' :=
  List.filterMap_append

theorem Slots.radicals_of_ne (h : factor.group ≠ .radical) :
    Slots.radicals [(key, factor)] = [] := by
  cases factor <;> first | rfl | exact absurd rfl h

theorem IsProduct.part (h : IsProduct rules factors) : IsProductPart rules factors :=
  ⟨h.distinct, h.key, h.coeff, h.factor, h.radicals⟩

theorem IsProductPart.isProduct (h : IsProductPart rules factors) (htwo : 2 ≤ factors.length) :
    IsProduct rules factors :=
  ⟨htwo, h.distinct, h.key, h.coeff, h.factor, h.radicals⟩

theorem IsProductPart.sublist {factors' : Slots} (hrules : rules.Hereditary)
    (h : IsProductPart rules factors) (hsub : factors'.Sublist factors) :
    IsProductPart rules factors' where
  distinct := h.distinct.sublist hsub
  key := fun slot hslot => h.key slot (hsub.subset hslot)
  coeff := fun slot hslot => h.coeff slot (hsub.subset hslot)
  factor := fun slot hslot => h.factor slot (hsub.subset hslot)
  radicals := hrules.sublist (hsub.filterMap _) h.radicals

theorem IsProductPart.append (h : IsProductPart rules factors) (hcoeff : factor.coeff = 1)
    (hfactor : factor.isFactor = true) (hgroup : factor.group ≠ .radical)
    (hkey : key = factor.multiplicativeKey) (hfresh : ∀ slot ∈ factors, slot.1 ≠ key) :
    IsProductPart rules (factors ++ [(key, factor)]) where
  distinct := Slots.distinct_append_singleton h.distinct hfresh
  key := List.forall_mem_append.mpr ⟨h.key, List.forall_mem_singleton.mpr hkey⟩
  coeff := List.forall_mem_append.mpr ⟨h.coeff, List.forall_mem_singleton.mpr hcoeff⟩
  factor := List.forall_mem_append.mpr ⟨h.factor, List.forall_mem_singleton.mpr hfactor⟩
  radicals := by
    rw [Slots.radicals_append, Slots.radicals_of_ne hgroup, List.append_nil]
    exact h.radicals

end

namespace Reduce

open ExactAlgebra.Expr

variable {mode : Mode} {rules : Discipline} {a b node factor : Expr} {factors : Slots}

/-- A product, the only factor left of it, or its coefficient. -/
theorem canonical_collapse_product (hrules : rules.Hereditary) {coeff : Rat}
    (hcoeff : coeff ≠ 0) (h : IsProductPart rules factors)
    (hfactors : ∀ slot ∈ factors, Canonical rules slot.2) :
    Canonical rules (collapse (.product coeff 1 factors)) := by
  match factors with
  | [] => exact .number coeff
  | [(key, child)] =>
      exact canonical_scale hrules.constant hcoeff (hfactors _ List.mem_cons_self)
  | first :: second :: rest => exact .product hcoeff (h.isProduct (by simp)) hfactors

/-- Any rational multiple. -/
theorem canonical_scale_any (hrules : rules.Hereditary) (c : Rat)
    (h : Canonical rules node) : Canonical rules (scale c node) := by
  by_cases hc : c = 0
  · rw [hc, scale_zero]
    exact .number 0
  · exact canonical_scale hrules.constant hc h

theorem radicals_of_canonical (hrules : rules.Hereditary) (h : Canonical rules node)
    (key : Key) : rules.radicals (Slots.radicals [(key, node)]) := by
  cases h with
  | radical _ _ hradicals => exact hradicals
  | _ => exact hrules.nothing

/-- Two factors side by side. -/
theorem canonical_pairFactors (hrules : rules.Hereditary) (ha : Canonical rules a)
    (hb : Canonical rules b) (hacoeff : a.coeff = 1) (hbcoeff : b.coeff = 1)
    (hafactor : a.isFactor = true) (hbfactor : b.isFactor = true)
    (hkey : a.multiplicativeKey ≠ b.multiplicativeKey)
    (hgroup : ¬ (a.group = .radical ∧ b.group = .radical)) :
    Canonical rules (pairFactors a b) := by
  have hradicals : rules.radicals (Slots.radicals
      ([(a.multiplicativeKey, a)] ++ [(b.multiplicativeKey, b)])) := by
    rw [Slots.radicals_append]
    by_cases hagroup : a.group = .radical
    · rw [Slots.radicals_of_ne fun hbgroup => hgroup ⟨hagroup, hbgroup⟩, List.append_nil]
      exact radicals_of_canonical hrules ha _
    · rw [Slots.radicals_of_ne hagroup, List.nil_append]
      exact radicals_of_canonical hrules hb _
  rw [pairFactors, Slots.ofList_pair hkey]
  exact .product one_ne_zero
    { two_le := le_rfl
      distinct := by simp [hkey.symm]
      key := by simp
      coeff := by simp [hacoeff, hbcoeff]
      factor := by simp [hafactor, hbfactor]
      radicals := hradicals } (by simpa using ⟨ha, hb⟩)

/-! ## Outcomes -/

/-- The result, if there is one, is canonical. -/
def Yields (rules : Discipline) (outcome : Except Fault Expr) : Prop :=
  ∀ node, outcome = .ok node → Canonical rules node

theorem Yields.ok (h : Canonical rules node) : Yields rules (.ok node) := by
  rintro _ ⟨⟩
  exact h

theorem Yields.error (fault : Fault) : Yields rules (.error fault) := by
  rintro _ ⟨⟩

theorem Yields.bind {α : Type} {outcome : Except Fault α} {next : α → Except Fault Expr}
    (h : ∀ value, outcome = .ok value → Yields rules (next value)) :
    Yields rules (outcome >>= next) := by
  cases outcome with
  | error fault => exact .error fault
  | ok value => exact h value rfl

theorem Yields.foldlM {α : Type} {values : List α} {step : Expr → α → Except Fault Expr}
    (hstep : ∀ total, Canonical rules total → ∀ value ∈ values, Yields rules (step total value))
    (h : Canonical rules a) : Yields rules (values.foldlM step a) := by
  induction values generalizing a with
  | nil => exact .ok h
  | cons value rest ih =>
      refine .bind fun total htotal => ?_
      exact ih (fun total htotal value hvalue =>
        hstep total htotal value (List.mem_cons_of_mem _ hvalue))
        (hstep a h value List.mem_cons_self total htotal)

end Reduce

end ExactAlgebra
