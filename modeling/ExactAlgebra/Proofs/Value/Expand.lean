import ExactAlgebra.Proofs.Value.Product
import ExactAlgebra.Proofs.Value.Valuation

/-!
# Values of expanded products

An interpretation is linear in the coefficients of expressions, and terms multiply as their
values do.  So do all other expressions, within a fixed number of nested calls.
-/

namespace ExactAlgebra

open ExactAlgebra.Expr

namespace Interpretation

open Reduce

variable {mode : Mode} {A : Type*} [CommRing A] [Algebra ℚ A] (I : Interpretation mode A)
  {a b node : Expr}

/-- The values of an interpretation. -/
noncomputable def valuation : Valuation A where
  rules := I.rules
  hereditary := I.rules_hereditary
  weight := Finsupp.linearCombination ℚ I.weight
  weight_constant := by
    have hconstant : I.weight constantMark = I.value (.number 1) := I.weight_content (.number 1)
    rw [Finsupp.linearCombination_single, hconstant, value_number, map_one, one_smul]

theorem valuation_value (h : Canonical I.rules node) : I.valuation.value node = I.value node :=
  (I.value_eq_linear h).symm

theorem results_of_valuation {outcome : Except Fault Expr} {x : A}
    (h : I.valuation.Results outcome x) : I.Results outcome x := by
  obtain ⟨node, hok, hnode, hvalue⟩ := h
  exact ⟨node, hok, hnode, (I.valuation_value hnode).symm.trans hvalue⟩

theorem multiplies :
    I.valuation.Multiplies mode fun a b => Canonical I.rules a ∧ Canonical I.rules b where
  symm h := h.symm
  canonical h := h.1
  withCoeff_one h := ⟨h.1.withCoeff_one, h.2⟩
  slots h _ slot hslot := ⟨h.1.slots slot hslot, h.2⟩
  term := by
    rintro a b ⟨ha, hb⟩ hasum hbsum fuel
    obtain ⟨node, hok, hnode, -, hvalue⟩ :
        I.ResultsTerm (combineFactors mode (fuel + 9) a b) (I.value a * I.value b) :=
      I.resultsTerm_combineFactors ha hb hasum hbsum
    refine ⟨node, hok, hnode, ?_⟩
    rw [I.valuation_value ha, I.valuation_value hb, ← hvalue]
    exact I.valuation_value hnode

/-- Multiplication gives a result with the product of the values. -/
theorem results_combineFactors (fuel : Nat) (ha : Canonical I.rules a) (hb : Canonical I.rules b) :
    I.Results (combineFactors mode (fuel + 25) a b) (I.value a * I.value b) := by
  have hproduct := I.multiplies.results_combineFactors fuel ⟨ha, hb⟩
  rw [I.valuation_value ha, I.valuation_value hb] at hproduct
  exact I.results_of_valuation hproduct

end Interpretation

end ExactAlgebra
