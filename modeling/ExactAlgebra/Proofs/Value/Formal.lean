import ExactAlgebra.Proofs.Canonical.Exponents
import ExactAlgebra.Proofs.Value.Valuation

/-!
# Formal sums

An expression is read as a formal sum of products of powers: a product is the function from
the keys of its factors to their exponents.  Equal expressions are those with the same sum.
-/

namespace ExactAlgebra

open ExactAlgebra.Expr

/-- Rational combinations of products of powers. -/
abbrev FormalSum := AddMonoidAlgebra Rat (Key →₀ Key →₀ Rat)

open Classical in
/-- The exponents of the terms with a given content. -/
noncomputable def exponentsOfContent (c : Key) : Key →₀ Key →₀ Rat :=
  if h : ∃ node, Canonical .proper node ∧ node.isExpandedSum = false ∧ node.content = c then
    h.choose.exponents
  else 0

/-- The coefficients of an expression as those of products of powers. -/
noncomputable def formalSum : (Key →₀ Rat) →ₗ[Rat] FormalSum :=
  Finsupp.linearCombination Rat fun c => .single (exponentsOfContent c) 1

/-- The formal sum of an expression. -/
noncomputable def Expr.formal (node : Expr) : FormalSum := formalSum node.linear

namespace Canonical

variable {a b node term : Expr}

theorem exponentsOfContent_eq (h : Canonical .proper node) (hsum : node.isExpandedSum = false) :
    exponentsOfContent node.content = node.exponents := by
  have hsome : ∃ other, Canonical .proper other ∧ other.isExpandedSum = false ∧
      other.content = node.content := ⟨node, h, hsum, rfl⟩
  obtain ⟨hcanonical, hterm, hcontent⟩ := hsome.choose_spec
  rw [exponentsOfContent, dif_pos hsome]
  exact hcanonical.exponents_eq_of_content h hterm hcontent

/-- A term is a multiple of a product of powers. -/
theorem formal_of_term (h : Canonical .proper node) (hsum : node.isExpandedSum = false) :
    node.formal = .single node.exponents node.coeff := by
  rw [formal, linear_of_not_isExpandedSum hsum, formalSum, Finsupp.linearCombination_single,
    h.exponentsOfContent_eq hsum, AddMonoidAlgebra.smul_single, smul_eq_mul, mul_one]

end Canonical

theorem formalSum_constantMark : formalSum (.single constantMark 1) = 1 := by
  have hconstant : exponentsOfContent constantMark = 0 :=
    Canonical.exponentsOfContent_eq (.number 1) rfl
  rw [formalSum, Finsupp.linearCombination_single, hconstant, one_smul]
  rfl

theorem formal_of_isExpandedSum {node : Expr} (hsum : node.isExpandedSum = true) :
    node.formal = (node.slots.map fun slot => slot.2.formal).sum := by
  rw [formal, linear_of_isExpandedSum hsum, Slots.linear, map_list_sum, List.map_map]
  rfl

namespace Canonical

variable {a b node term : Expr}

/-- The coefficients of the products of powers are those of the terms. -/
theorem coeff_formal (hterm : Canonical .proper term) (htermsum : term.isExpandedSum = false)
    (h : Canonical .proper node) : node.formal.coeff term.exponents = node.linear term.content := by
  induction node using slots_induction with
  | step node ih =>
      cases hsum : node.isExpandedSum with
      | false =>
          rw [h.formal_of_term hsum, linear_of_not_isExpandedSum hsum,
            AddMonoidAlgebra.coeff_single]
          by_cases hexponents : node.exponents = term.exponents
          · rw [hexponents, h.content_eq_of_exponents hterm hsum htermsum hexponents,
              Finsupp.single_eq_same, Finsupp.single_eq_same]
          · have hcontent : node.content ≠ term.content := fun hcontent =>
              hexponents (h.exponents_eq_of_content hterm hsum hcontent)
            rw [Finsupp.single_eq_of_ne (Ne.symm hexponents),
              Finsupp.single_eq_of_ne (Ne.symm hcontent)]
      | true =>
          rw [formal_of_isExpandedSum hsum, linear_of_isExpandedSum hsum]
          have hslots := fun slot hslot => ih slot hslot (h.slots slot hslot)
          generalize node.slots = slots at hslots
          induction slots with
          | nil => rfl
          | cons slot rest ihrest =>
              obtain ⟨hslot, hrest⟩ := List.forall_mem_cons.mp hslots
              rw [List.map_cons, List.sum_cons, Slots.linear_cons, AddMonoidAlgebra.coeff_add,
                Finsupp.add_apply, Finsupp.add_apply, hslot, ihrest hrest]

/-- The coefficient of a term of the expression. -/
theorem coeff_formal_of_mem_terms (h : Canonical .proper node) (hterm : term ∈ node.terms) :
    node.formal.coeff term.exponents = term.coeff := by
  rw [coeff_formal (h.canonical_of_mem_terms hterm) (isExpandedSum_of_mem_terms hterm) h,
    linear_apply_of_mem_terms (h.nodup_contents fun _ hvalue => hvalue) hterm]

/-- The products of powers in a formal sum are those of the terms. -/
theorem exists_mem_terms_of_coeff_formal {e : Key →₀ Key →₀ Rat} (h : Canonical .proper node)
    (hne : node.formal.coeff e ≠ 0) : ∃ term ∈ node.terms, term.exponents = e := by
  induction node using slots_induction with
  | step node ih =>
      cases hsum : node.isExpandedSum with
      | false =>
          rw [h.formal_of_term hsum, AddMonoidAlgebra.coeff_single] at hne
          refine ⟨node, ?_, by_contra fun hexponents => hne (Finsupp.single_eq_of_ne' hexponents)⟩
          rw [terms_of_not_isExpandedSum hsum]
          exact List.mem_singleton_self node
      | true =>
          have hsome : ∃ slot ∈ node.slots, slot.2.formal.coeff e ≠ 0 := by
            rw [formal_of_isExpandedSum hsum] at hne
            generalize node.slots = slots at hne
            induction slots with
            | nil => exact absurd rfl hne
            | cons slot rest ihrest =>
                rw [List.map_cons, List.sum_cons, AddMonoidAlgebra.coeff_add,
                  Finsupp.add_apply] at hne
                by_cases hslot : slot.2.formal.coeff e = 0
                · rw [hslot, zero_add] at hne
                  obtain ⟨other, hother, hotherne⟩ := ihrest hne
                  exact ⟨other, List.mem_cons_of_mem _ hother, hotherne⟩
                · exact ⟨slot, List.mem_cons_self, hslot⟩
          obtain ⟨slot, hslot, hslotne⟩ := hsome
          obtain ⟨term, hterm, hexponents⟩ := ih slot hslot (h.slots slot hslot) hslotne
          refine ⟨term, ?_, hexponents⟩
          rw [terms_of_isExpandedSum hsum]
          exact List.mem_flatMap.mpr ⟨slot, hslot, hterm⟩

theorem linear_eq_of_formal (ha : Canonical .proper a) (hb : Canonical .proper b)
    (h : a.formal = b.formal) : a.linear = b.linear := by
  refine Finsupp.ext fun c => ?_
  by_cases hterm : ∃ term, Canonical .proper term ∧ term.isExpandedSum = false ∧ term.content = c
  · obtain ⟨term, hcanonical, hsum, rfl⟩ := hterm
    rw [← coeff_formal hcanonical hsum ha, ← coeff_formal hcanonical hsum hb, h]
  · have hzero : ∀ {node : Expr}, Canonical .proper node → node.linear c = 0 :=
      fun hnode => by_contra fun hne => hterm (hnode.exists_canonical_of_linear_ne_zero hne)
    rw [hzero ha, hzero hb]

/-- Equal expressions are those with the same formal sum. -/
theorem equals_iff_formal (ha : Canonical .proper a) (hb : Canonical .proper b) :
    a.equals b = true ↔ a.formal = b.formal := by
  rw [ha.equals_iff_linear hb]
  exact ⟨fun h => congrArg formalSum h, ha.linear_eq_of_formal hb⟩

end Canonical

/-! ## Readings -/

/-- A reading of the formal sums of some canonical expressions in an algebra. -/
structure FormalReading (A : Type*) [CommRing A] [Algebra Rat A] where
  rules : Discipline
  hereditary : rules.Hereditary
  perm : ∀ {radicals radicals' : List (Rat × Rat)}, radicals.Perm radicals' →
    rules.radicals radicals → rules.radicals radicals'
  proper : ∀ {node}, Canonical rules node → Canonical .proper node
  read : FormalSum →ₐ[Rat] A

namespace FormalReading

variable {A : Type*} [CommRing A] [Algebra Rat A] (V : FormalReading A)

/-- The valuation by what formal sums are read as. -/
noncomputable def valuation : Valuation A where
  rules := V.rules
  hereditary := V.hereditary
  weight := V.read.toLinearMap ∘ₗ formalSum
  weight_constant := (congrArg V.read formalSum_constantMark).trans (map_one _)

/-- Formal sums as they are. -/
noncomputable def exact : FormalReading FormalSum where
  rules := .proper
  hereditary := (Discipline.proper_admissible .exact).toHereditary
  perm _ _ := trivial
  proper h := h
  read := .id Rat FormalSum

end FormalReading

end ExactAlgebra
