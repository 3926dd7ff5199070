import ExactAlgebra.Proofs.Value.Polynomial
import ExactAlgebra.Proofs.Value.SumRootProduct

/-!
# Grouping and order of factors

Products of steady expressions, with roots of sums or without, do not depend on the grouping or the
order of their factors, and those of polynomial expressions do not in numeric mode either.  With
fractional powers of the imaginary unit they do: two whole units reduce to minus one when they meet,
but each of them is absorbed by a fractional power.
-/

namespace ExactAlgebra

open Arithmetic ExactAlgebra.Expr

variable {mode : Mode} {rules : Discipline} {hasRoots : Key → Prop} {a a' b b' d : Expr}

/-! ## Faithful values -/

/-- A value that tells the expressions of a discipline apart and multiplies as they do. -/
structure IsFaithful {A : Type*} [CommSemigroup A] (mode : Mode) (rules : Discipline)
    (value : Expr → A) : Prop where
  equals_iff : ∀ {a b}, Canonical rules a → Canonical rules b →
    (a.equals b = true ↔ value a = value b)
  exists_multiply : ∀ {a b}, Canonical rules a → Canonical rules b →
    ∃ node, multiply mode a b = .ok node ∧ Canonical rules node ∧ value node = value a * value b

namespace IsFaithful

variable {A : Type*} [CommSemigroup A] {value : Expr → A}

theorem agree_assoc (h : IsFaithful mode rules value) (ha : Canonical rules a)
    (hb : Canonical rules b) (hd : Canonical rules d) :
    Agree (do multiply mode (← multiply mode a b) d)
      (do multiply mode a (← multiply mode b d)) := by
  obtain ⟨left, hleft, hleftcanonical, hleftvalue⟩ := h.exists_multiply ha hb
  obtain ⟨right, hright, hrightcanonical, hrightvalue⟩ := h.exists_multiply hb hd
  obtain ⟨first, hfirst, hfirstcanonical, hfirstvalue⟩ := h.exists_multiply hleftcanonical hd
  obtain ⟨second, hsecond, hsecondcanonical, hsecondvalue⟩ := h.exists_multiply ha hrightcanonical
  have hvalue : value first = value second := by
    rw [hfirstvalue, hleftvalue, mul_assoc, hsecondvalue, hrightvalue]
  rw [hleft, hright]
  exact ⟨first, second, hfirst, hsecond,
    (h.equals_iff hfirstcanonical hsecondcanonical).mpr hvalue⟩

theorem agree_comm (h : IsFaithful mode rules value) (ha : Canonical rules a)
    (ha' : Canonical rules a') (hb : Canonical rules b) (hb' : Canonical rules b')
    (haa' : a.equals a' = true) (hbb' : b.equals b' = true) :
    Agree (multiply mode a b) (multiply mode b' a') := by
  obtain ⟨left, hleft, hleftcanonical, hleftvalue⟩ := h.exists_multiply ha hb
  obtain ⟨right, hright, hrightcanonical, hrightvalue⟩ := h.exists_multiply hb' ha'
  have hvalue : value left = value right := by
    rw [hleftvalue, hrightvalue, (h.equals_iff ha ha').mp haa', (h.equals_iff hb hb').mp hbb',
      mul_comm]
  exact ⟨left, right, hleft, hright, (h.equals_iff hleftcanonical hrightcanonical).mpr hvalue⟩

end IsFaithful

/-! ## Polynomials -/

namespace Interpretation

theorem isFaithful_monomials (mode : Mode) :
    IsFaithful mode (monomials mode).rules (monomials mode).value where
  equals_iff := equals_iff_value
  exists_multiply := (monomials mode).results_multiply

/-- The grouping of polynomial factors does not matter. -/
theorem agree_multiply_assoc (ha : Canonical (monomials mode).rules a)
    (hb : Canonical (monomials mode).rules b) (hd : Canonical (monomials mode).rules d) :
    Agree (do multiply mode (← multiply mode a b) d)
      (do multiply mode a (← multiply mode b d)) :=
  (isFaithful_monomials mode).agree_assoc ha hb hd

/-- The order of two polynomial factors and that of the children in them do not matter. -/
theorem agree_multiply_comm (ha : Canonical (monomials mode).rules a)
    (ha' : Canonical (monomials mode).rules a') (hb : Canonical (monomials mode).rules b)
    (hb' : Canonical (monomials mode).rules b') (haa' : a.equals a' = true)
    (hbb' : b.equals b' = true) : Agree (multiply mode a b) (multiply mode b' a') :=
  (isFaithful_monomials mode).agree_comm ha ha' hb hb' haa' hbb'

end Interpretation

namespace Arithmetic

theorem isFaithful_rooted (hmode : mode.numeric = false) (hasRoots : Key → Prop) :
    IsFaithful mode (.rooted mode hasRoots) (Valuation.roots mode hasRoots).value where
  equals_iff ha hb := by rw [value_roots, value_roots, ha.equals_iff_readRoots hb]
  exists_multiply := results_multiply_rooted hmode

/-! ## Grouping -/

/-- The grouping of factors does not matter. -/
theorem agree_multiply_assoc_of_rooted (hmode : mode.numeric = false)
    (ha : Canonical (.rooted mode hasRoots) a) (hb : Canonical (.rooted mode hasRoots) b)
    (hd : Canonical (.rooted mode hasRoots) d) :
    Agree (do multiply mode (← multiply mode a b) d)
      (do multiply mode a (← multiply mode b d)) :=
  (isFaithful_rooted hmode hasRoots).agree_assoc ha hb hd

/-- `sqrt(x + 1)` twice and `sqrt(2)`. -/
theorem agree_multiply_assoc_roots :
    let x := named "x"
    let terms := [(x.additiveKey, x), (constantMark, .number 1)]
    let hasRoots := fun key => key = Slots.termsKey terms
    let sumRoot := composite 1 (1 / 2) terms
    let root := radical 1 2 (1 / 2)
    Mode.exact.numeric = false ∧ Canonical (.rooted .exact hasRoots) sumRoot ∧
      Canonical (.rooted .exact hasRoots) root ∧
      Agree (do multiply .exact (← multiply .exact sumRoot sumRoot) root)
        (do multiply .exact sumRoot (← multiply .exact sumRoot root)) := by
  intro x terms hasRoots sumRoot root
  have hsumRoot : Canonical (.rooted .exact hasRoots) sumRoot :=
    .root_of_binomial one_ne_zero ⟨by norm_num, by norm_num⟩ rfl
  have hroot : Canonical (.rooted .exact hasRoots) root :=
    .root_of_prime Nat.prime_two (by decide) ⟨by norm_num, by norm_num⟩
  exact ⟨rfl, hsumRoot, hroot, agree_multiply_assoc_of_rooted rfl hsumRoot hsumRoot hroot⟩

/-- `sqrt(i) * i * i` is `i^(5/2)` or `-sqrt(i)`, by its grouping. -/
theorem not_agree_multiply_assoc :
    let root := Environment.read "sqrt(i)"
    let unit := Environment.read "i"
    let left := do multiply .exact (← multiply .exact (← root) (← unit)) (← unit)
    let right := do multiply .exact (← root) (← multiply .exact (← unit) (← unit))
    Agree left (Environment.read "i^(5/2)") ∧ Agree right (Environment.read "-sqrt(i)") ∧
      ¬ Agree left right := by
  decide +kernel

/-! ## Order -/

/-- The order of two factors and that of the children in them do not matter. -/
theorem agree_multiply_comm_of_rooted (hmode : mode.numeric = false)
    (ha : Canonical (.rooted mode hasRoots) a) (ha' : Canonical (.rooted mode hasRoots) a')
    (hb : Canonical (.rooted mode hasRoots) b) (hb' : Canonical (.rooted mode hasRoots) b')
    (haa' : a.equals a' = true) (hbb' : b.equals b' = true) :
    Agree (multiply mode a b) (multiply mode b' a') :=
  (isFaithful_rooted hmode hasRoots).agree_comm ha ha' hb hb' haa' hbb'

/-- `sqrt(x + 1)*sqrt(2)` with its factors in both orders, and `sqrt(x + 1)`. -/
theorem agree_multiply_comm_rearranged :
    let x := named "x"
    let terms := [(x.additiveKey, x), (constantMark, .number 1)]
    let hasRoots := fun key => key = Slots.termsKey terms
    let sumRoot := composite 1 (1 / 2) terms
    let root := radical 1 2 (1 / 2)
    let product := Reduce.pairFactors sumRoot root
    let rearranged := Reduce.pairFactors root sumRoot
    Mode.exact.numeric = false ∧ Canonical (.rooted .exact hasRoots) product ∧
      Canonical (.rooted .exact hasRoots) rearranged ∧
      Canonical (.rooted .exact hasRoots) sumRoot ∧ product.equals rearranged = true ∧
      sumRoot.equals sumRoot = true ∧
      Agree (multiply .exact product sumRoot) (multiply .exact sumRoot rearranged) := by
  intro x terms hasRoots sumRoot root product rearranged
  have hsumRoot : Canonical (.rooted .exact hasRoots) sumRoot :=
    .root_of_binomial one_ne_zero ⟨by norm_num, by norm_num⟩ rfl
  have hroot : Canonical (.rooted .exact hasRoots) root :=
    .root_of_prime Nat.prime_two (by decide) ⟨by norm_num, by norm_num⟩
  have hproduct : Canonical (.rooted .exact hasRoots) product :=
    Reduce.canonical_pairFactors (Discipline.rooted_hereditary .exact _) hsumRoot hroot rfl rfl
      (by decide +kernel) rfl (by decide +kernel) (by decide)
  have hrearranged : Canonical (.rooted .exact hasRoots) rearranged :=
    Reduce.canonical_pairFactors (Discipline.rooted_hereditary .exact _) hroot hsumRoot rfl rfl rfl
      (by decide +kernel) (by decide +kernel) (by decide)
  have hsame : product.equals rearranged = true := by decide +kernel
  have hsumsame : sumRoot.equals sumRoot = true := beq_self_eq_true _
  exact ⟨rfl, hproduct, hrearranged, hsumRoot, hsame, hsumsame,
    agree_multiply_comm_of_rooted rfl hproduct hrearranged hsumRoot hsumRoot hsame hsumsame⟩

/-- The square of `(-1)^(1/4)` is the imaginary unit, which meets the other unit in one order
and the fractional power of the unit in the other. -/
theorem not_agree_multiply_comm :
    let a := Environment.read "x*(-1)^(1/4)*sqrt(i)"
    let b := Environment.read "x*(-1)^(1/4)*i"
    let left := do multiply .exact (← a) (← b)
    let right := do multiply .exact (← b) (← a)
    Agree left (Environment.read "i^(5/2)*x^2") ∧ Agree right (Environment.read "-sqrt(i)*x^2") ∧
      ¬ Agree left right := by
  decide +kernel

end Arithmetic

end ExactAlgebra
