import ExactAlgebra.Proofs.Canonical.Arithmetic
import ExactAlgebra.Proofs.Canonical.Unique

/-!
# Addition of coefficients

The terms of a canonical sum have different contents, so an expression is read as a
function from contents to coefficients.  Addition and subtraction of expressions are
those of their functions, and equal expressions are those with one function.
-/

namespace ExactAlgebra

namespace Expr

/-- The coefficient of the term with a given content, or zero. -/
def coefficient (node : Expr) (content : Key) : Rat :=
  ((node.terms.find? fun term => term.content == content).map Expr.coeff).getD 0

theorem sum_single_apply {terms : List Expr} (h : (terms.map content).Nodup) (c : Key) :
    (terms.map fun term => Finsupp.single term.content term.coeff).sum c =
      ((terms.find? fun term => term.content == c).map Expr.coeff).getD 0 := by
  induction terms with
  | nil => rfl
  | cons term rest ih =>
      obtain ⟨hfresh, hrest⟩ := List.nodup_cons.mp h
      rw [List.map_cons, List.sum_cons, Finsupp.add_apply, ih hrest]
      by_cases hc : term.content = c
      · subst hc
        have hnone : (rest.find? fun other => other.content == term.content) = none := by
          refine List.find?_eq_none.mpr fun other hother heq => hfresh ?_
          exact List.mem_map.mpr ⟨other, hother, beq_iff_eq.mp heq⟩
        simp [hnone]
      · simp [hc, Ne.symm hc]

/-- The two readings of the coefficients agree if no content repeats. -/
theorem coefficient_eq_linear {node : Expr} (h : (node.terms.map content).Nodup) (c : Key) :
    node.coefficient c = node.linear c :=
  (sum_single_apply h c).symm

theorem linear_apply_of_mem_terms {node term : Expr} (h : (node.terms.map content).Nodup)
    (hterm : term ∈ node.terms) : node.linear term.content = term.coeff := by
  rw [← coefficient_eq_linear h, coefficient]
  obtain ⟨found, hfound⟩ : ∃ found, (node.terms.find? fun other =>
      other.content == term.content) = some found := by
    rw [← Option.isSome_iff_exists, List.find?_isSome]
    exact ⟨term, hterm, beq_self_eq_true _⟩
  have hcontent : found.content = term.content := by simpa using List.find?_some hfound
  have hsame : found = term :=
    List.inj_on_of_nodup_map h (List.mem_of_find?_eq_some hfound) hterm hcontent
  rw [hfound, hsame]
  rfl

theorem terms_of_isExpandedSum {node : Expr} (h : node.isExpandedSum = true) :
    node.terms = node.slots.flatMap fun slot => slot.2.terms := by
  rw [← terms_slotsTerms]
  cases node <;> simp_all [terms, isExpandedSum, isSum, degreePower, slots]

/-- The parts of a term are parts of the expression. -/
theorem walk_subset_of_mem_terms {node term : Expr} (h : term ∈ node.terms) :
    term.walk ⊆ node.walk := by
  induction node using slots_induction with
  | step node ih =>
      cases hsum : node.isExpandedSum with
      | false =>
          rw [terms_of_not_isExpandedSum hsum, List.mem_singleton] at h
          rw [h]
          exact List.Subset.refl _
      | true =>
          rw [terms_of_isExpandedSum hsum] at h
          obtain ⟨slot, hslot, hterm⟩ := List.mem_flatMap.mp h
          exact List.Subset.trans (ih slot hslot hterm) (walk_subset_of_mem_slots hslot)

theorem isExpandedSum_of_mem_terms {node term : Expr} (h : term ∈ node.terms) :
    term.isExpandedSum = false := by
  induction node using slots_induction with
  | step node ih =>
      cases hsum : node.isExpandedSum with
      | false =>
          rw [terms_of_not_isExpandedSum hsum, List.mem_singleton] at h
          rwa [h]
      | true =>
          rw [terms_of_isExpandedSum hsum] at h
          obtain ⟨slot, hslot, hterm⟩ := List.mem_flatMap.mp h
          exact ih slot hslot hterm

end Expr

open ExactAlgebra.Expr

namespace Canonical

variable {rules : Discipline} {a b node term : Expr}

theorem canonical_of_mem_terms (h : Canonical rules node) (hterm : term ∈ node.terms) :
    Canonical rules term := by
  induction node using slots_induction with
  | step node ih =>
      cases hsum : node.isExpandedSum with
      | false =>
          rw [terms_of_not_isExpandedSum hsum, List.mem_singleton] at hterm
          exact hterm ▸ h
      | true =>
          rw [terms_of_isExpandedSum hsum] at hterm
          obtain ⟨slot, hslot, hterm⟩ := List.mem_flatMap.mp hterm
          exact ih slot hslot (h.slots slot hslot) hterm

section

variable (hconstant : ∀ value, rules.constant value → value ≠ 0)

include hconstant

/-- Only the constant zero has a term with coefficient zero. -/
theorem coeff_ne_zero_of_mem_terms (h : Canonical rules node) (hzero : node.isZero = false)
    (hterm : term ∈ node.terms) : term.coeff ≠ 0 := by
  induction node using slots_induction with
  | step node ih =>
      cases hsum : node.isExpandedSum with
      | false =>
          rw [terms_of_not_isExpandedSum hsum, List.mem_singleton] at hterm
          subst hterm
          exact h.coeff_ne_zero_of_not_isZero hzero
      | true =>
          rw [terms_of_isExpandedSum hsum] at hterm
          obtain ⟨slot, hslot, hterm⟩ := List.mem_flatMap.mp hterm
          exact ih slot hslot (h.slots slot hslot) (h.isZero_of_mem hconstant hsum hslot) hterm

/-- The terms of a canonical expression have different contents. -/
theorem nodup_contents (h : Canonical rules node) : (node.terms.map content).Nodup := by
  induction node using slots_induction with
  | step node ih =>
      cases hsum : node.isExpandedSum with
      | false =>
          rw [terms_of_not_isExpandedSum hsum]
          exact List.nodup_singleton _
      | true =>
          have hchild : ∀ slot ∈ node.slots, (slot.2.terms.map content).Nodup :=
            fun slot hslot => ih slot hslot (h.slots slot hslot)
          have hne : ∀ slot ∈ node.slots, ∀ c ∈ slot.2.terms.map content, slot.2.linear c ≠ 0 := by
            intro slot hslot c hc
            obtain ⟨term, hterm, rfl⟩ := List.mem_map.mp hc
            rw [linear_apply_of_mem_terms (hchild slot hslot) hterm]
            exact (h.slots slot hslot).coeff_ne_zero_of_mem_terms hconstant
              (h.isZero_of_mem hconstant hsum hslot) hterm
          rw [terms_of_isExpandedSum hsum, List.map_flatMap, List.nodup_flatMap]
          refine ⟨hchild, h.distinct_slots.nodup.imp_of_mem ?_⟩
          -- a shared content would make the two children one
          intro slot slot' hslot hslot' hdistinct c hc hc'
          exact hdistinct (h.separate hsum slot hslot slot' hslot' c (hne slot hslot c hc)
            (hne slot' hslot' c hc'))

theorem coefficient_eq (h : Canonical rules node) (c : Key) :
    node.coefficient c = node.linear c :=
  coefficient_eq_linear (h.nodup_contents hconstant) c

end

/-- Equal expressions have the same coefficients. -/
theorem linear_eq_of_signature (ha : Canonical rules a) (hb : Canonical rules b)
    (h : a.signature = b.signature) : a.linear = b.linear := by
  induction a using slots_induction generalizing b with
  | step a ih =>
      have hcontent := content_eq_of_signature h
      cases hsum : a.isExpandedSum with
      | false =>
          have hbsum : b.isExpandedSum = false := by rwa [← isExpandedSum_eq_of_content hcontent]
          rw [linear_of_not_isExpandedSum hsum, linear_of_not_isExpandedSum hbsum, hcontent,
            coeff_eq_of_signature h]
      | true =>
          have hbsum : b.isExpandedSum = true := by rwa [← isExpandedSum_eq_of_content hcontent]
          have hperm := Slots.map_perm (f := linear) (ha.signatures_perm hb hcontent)
            fun slot hslot slot' hslot' hsignature =>
              ih slot hslot (ha.slots slot hslot) (hb.slots slot' hslot') hsignature
          rw [linear_of_isExpandedSum hsum, linear_of_isExpandedSum hbsum, Slots.linear,
            Slots.linear, hperm.sum_eq]

end Canonical

/-- The canonical expressions that the operations produce: no sum has a zero among
its terms. -/
def Discipline.proper : Discipline :=
  { Discipline.free with constant := fun value => value ≠ 0 }

theorem Discipline.proper_admissible (mode : Mode) : Discipline.proper.Admissible mode :=
  { Discipline.free_admissible mode with constant := fun _ hvalue => hvalue }

namespace Canonical

variable {a b : Expr}

theorem proper_coefficient (h : Canonical .proper a) (c : Key) : a.coefficient c = a.linear c :=
  h.coefficient_eq (fun _ hvalue => hvalue) c

/-- Equal expressions are those with the same coefficients. -/
theorem equals_iff_linear (ha : Canonical .proper a) (hb : Canonical .proper b) :
    a.equals b = true ↔ a.linear = b.linear := by
  rw [equals, beq_iff_eq]
  exact ⟨ha.linear_eq_of_signature hb,
    ha.signature_eq_of_linear (fun _ hvalue => hvalue) hb⟩

end Canonical

namespace Arithmetic

open Reduce

variable {a b d : Expr} {x y : Except Fault Expr} {total : Key →₀ Rat}

/-- Both outcomes are expressions, and these are equal. -/
def Agree (x y : Except Fault Expr) : Prop :=
  ∃ a b, x = .ok a ∧ y = .ok b ∧ a.equals b = true

instance : (x y : Except Fault Expr) → Decidable (Agree x y)
  | .ok a, .ok b => decidable_of_iff (a.equals b = true) (by simp [Agree])
  | .error _, _ | .ok _, .error _ => isFalse (by simp [Agree])

/-- Outcomes with the same coefficients agree. -/
theorem agree_of_totals (hx : Totals .proper x total) (hy : Totals .proper y total) :
    Agree x y := by
  obtain ⟨a, rfl, ha, hlinear⟩ := hx
  obtain ⟨b, rfl, hb, rfl⟩ := hy
  exact ⟨a, b, rfl, rfl, (ha.equals_iff_linear hb).mpr hlinear⟩

theorem totals_ok (h : Canonical .proper a) : Totals .proper (.ok a) a.linear :=
  ⟨a, rfl, h, rfl⟩

theorem totals_bind {f : Expr → Except Fault Expr} {total' : Key →₀ Rat}
    (hx : Totals .proper x total)
    (hf : ∀ node, Canonical .proper node → node.linear = total →
      Totals .proper (f node) total') :
    Totals .proper (x >>= f) total' := by
  obtain ⟨node, rfl, hnode, hlinear⟩ := hx
  exact hf node hnode hlinear

theorem proper_add (ha : Canonical .proper a) (hb : Canonical .proper b) :
    Totals .proper (add a b) (a.linear + b.linear) :=
  totals_add (Discipline.proper_admissible .exact) ha hb

theorem proper_subtract (ha : Canonical .proper a) (hb : Canonical .proper b) :
    Totals .proper (subtract a b) (a.linear - b.linear) :=
  totals_subtract (Discipline.proper_admissible .exact) ha hb

theorem agree_add_assoc (ha : Canonical .proper a) (hb : Canonical .proper b)
    (hd : Canonical .proper d) :
    Agree (do add (← add a b) d) (do add a (← add b d)) := by
  have hleft : Totals .proper (do add (← add a b) d) (a.linear + b.linear + d.linear) :=
    totals_bind (proper_add ha hb) fun node hnode hlinear => hlinear ▸ proper_add hnode hd
  have hright : Totals .proper (do add a (← add b d)) (a.linear + (b.linear + d.linear)) :=
    totals_bind (proper_add hb hd) fun node hnode hlinear => hlinear ▸ proper_add ha hnode
  rw [← add_assoc] at hright
  exact agree_of_totals hleft hright

/-- Addition adds the coefficients of every content, and equal expressions are those
with the same coefficients; so addition is that of a commutative group. -/
theorem coefficient_add_subtract (ha : Canonical .proper a) (hb : Canonical .proper b)
    (hd : Canonical .proper d) :
    (∃ sum, add a b = .ok sum ∧ Canonical .proper sum ∧
        ∀ c, sum.coefficient c = a.coefficient c + b.coefficient c) ∧
      (∃ difference, subtract a b = .ok difference ∧ Canonical .proper difference ∧
        ∀ c, difference.coefficient c = a.coefficient c - b.coefficient c) ∧
      (a.equals b = true ↔ ∀ c, a.coefficient c = b.coefficient c) ∧
      Agree (add a b) (add b a) ∧
      Agree (do add (← add a b) d) (do add a (← add b d)) ∧
      Agree (add a (.number 0)) (.ok a) ∧ Agree (add (.number 0) a) (.ok a) ∧
      Agree (add a (negate a)) (.ok (.number 0)) ∧
      Agree (add (negate a) a) (.ok (.number 0)) := by
  have hzero : Canonical .proper (.number 0) := .number 0
  have hzerolinear : (Expr.number 0).linear = 0 := by simp
  have hnegate : Canonical .proper (negate a) :=
    canonical_negate (Discipline.proper_admissible .exact) ha
  have hcancel : Totals .proper (.ok (.number 0)) 0 := hzerolinear ▸ totals_ok hzero
  refine ⟨?_, ?_, ?_, ?_, agree_add_assoc ha hb hd, ?_, ?_, ?_, ?_⟩
  · obtain ⟨sum, hok, hsum, hlinear⟩ := proper_add ha hb
    refine ⟨sum, hok, hsum, fun c => ?_⟩
    rw [hsum.proper_coefficient, ha.proper_coefficient, hb.proper_coefficient, hlinear,
      Finsupp.add_apply]
  · obtain ⟨difference, hok, hdifference, hlinear⟩ := proper_subtract ha hb
    refine ⟨difference, hok, hdifference, fun c => ?_⟩
    rw [hdifference.proper_coefficient, ha.proper_coefficient, hb.proper_coefficient, hlinear,
      Finsupp.sub_apply]
  · simp only [ha.equals_iff_linear hb, ha.proper_coefficient, hb.proper_coefficient,
      Finsupp.ext_iff]
  · exact agree_of_totals (proper_add ha hb) (add_comm b.linear a.linear ▸ proper_add hb ha)
  · have hsum := proper_add ha hzero
    rw [hzerolinear, add_zero] at hsum
    exact agree_of_totals hsum (totals_ok ha)
  · have hsum := proper_add hzero ha
    rw [hzerolinear, zero_add] at hsum
    exact agree_of_totals hsum (totals_ok ha)
  · have hsum := proper_add ha hnegate
    rw [linear_negate, add_neg_cancel] at hsum
    exact agree_of_totals hsum hcancel
  · have hsum := proper_add hnegate ha
    rw [linear_negate, neg_add_cancel] at hsum
    exact agree_of_totals hsum hcancel

theorem coefficient_add_subtract_quadratic :
    let x := Expr.named "x"
    let linear := Expr.composite 1 1 [(x.additiveKey, x), (Expr.constantMark, .number 1)]
    let quadratic := Expr.polynomial 1 1 [(.rational 2, .symbol 3 "x" 2), (.rational 1, x)]
    Canonical .proper linear ∧ Canonical .proper quadratic ∧
      linear.coefficient x.content = 1 ∧ quadratic.coefficient x.content = 1 ∧
      (∃ sum, add linear quadratic = .ok sum ∧
        sum.coefficient x.content =
          linear.coefficient x.content + quadratic.coefficient x.content) ∧
      Agree (add linear quadratic) (add quadratic linear) := by
  intro x linear quadratic
  have hx : Canonical .proper x := .symbol one_ne_zero one_ne_zero trivial
  have hlinear : Canonical .proper linear := .binomial trivial one_ne_zero
  have hquadratic : Canonical .proper quadratic := by
    refine .expandedPolynomial
      { two_le := le_rfl
        distinct := by simp
        powered := by simp [x, Expr.named, Expr.isPowered]
        key := by simp [x, Expr.named, Expr.exponent, Expr.degreePower, Exponent.key]
        base := by simp [x, Expr.named, Expr.baseKey, Expr.withPower, Expr.content] } ?_
    simpa using ⟨Canonical.symbol three_ne_zero two_ne_zero trivial, hx⟩
  obtain ⟨⟨sum, hok, -, hsum⟩, -, -, hcomm, -⟩ :=
    coefficient_add_subtract hlinear hquadratic hx
  exact ⟨hlinear, hquadratic, by decide +kernel, by decide +kernel, ⟨sum, hok, hsum _⟩, hcomm⟩

end Arithmetic

end ExactAlgebra
