import ExactAlgebra.Proofs.Canonical.Identity
import ExactAlgebra.Proofs.Depth.Roots
import ExactAlgebra.Proofs.Value.Expand

/-!
# Potentials

The potential of an expression bounds how many factors its powers and products can still
merge.  The potential of a product is the sum over its factors, and that of a sum is the
greatest among its terms, so neither sums nor products make potential.  A sum with an
exponent of its own has the potential of all the sums that it may expand to.
-/

namespace ExactAlgebra

open Reduce

namespace Expr

/-- The potential of a power of a sum. -/
def powerPotential (potential : Nat) (exponent : Rat) : Nat := (⌈exponent⌉₊ + 1) * (potential + 1)

mutual

noncomputable def potential : Expr → Nat
  | number _ => 0
  | radical _ base _ => rootPotential base
  | symbol .. => 1
  | exponential _ base exponent =>
      if base.isNumber then 4
      else if base.isSum then powerPotential base.potential (constantTerm exponent)
      else 1
  | call .. => 1
  | polynomial _ power terms =>
      if power = 1 then greatestPotential terms else powerPotential (greatestPotential terms) power
  | product _ _ factors => totalPotential factors
  | composite _ power terms =>
      if power = 1 then greatestPotential terms else powerPotential (greatestPotential terms) power

noncomputable def greatestPotential : List (Key × Expr) → Nat
  | [] => 0
  | (_, child) :: rest => max child.potential (greatestPotential rest)

noncomputable def totalPotential : List (Key × Expr) → Nat
  | [] => 0
  | (_, child) :: rest => child.potential + totalPotential rest

end

end Expr

/-! ## Slots -/

namespace Slots

open ExactAlgebra.Expr

variable {slots slots' : Slots} {n : Nat}

theorem totalPotential_eq (slots : Slots) :
    totalPotential slots = (slots.map fun slot => slot.2.potential).sum := by
  induction slots with
  | nil => rfl
  | cons slot rest ih => rw [totalPotential, List.map_cons, List.sum_cons, ih]

theorem greatestPotential_le_iff :
    greatestPotential slots ≤ n ↔ ∀ slot ∈ slots, slot.2.potential ≤ n := by
  induction slots with
  | nil => simp [greatestPotential]
  | cons slot rest ih => rw [greatestPotential, max_le_iff, ih, List.forall_mem_cons]

@[simp] theorem totalPotential_append (slots slots' : Slots) :
    totalPotential (slots ++ slots') = totalPotential slots + totalPotential slots' := by
  simp [totalPotential_eq]

theorem totalPotential_perm (h : slots.Perm slots') :
    totalPotential slots = totalPotential slots' := by
  rw [totalPotential_eq, totalPotential_eq]
  exact (h.map _).sum_eq

theorem greatestPotential_congr {f : Expr → Expr}
    (h : ∀ slot ∈ slots, (f slot.2).potential = slot.2.potential) :
    greatestPotential (slots.map fun slot => (slot.1, f slot.2)) = greatestPotential slots := by
  induction slots with
  | nil => rfl
  | cons slot rest ih =>
      rw [List.forall_mem_cons] at h
      rw [List.map_cons, greatestPotential, greatestPotential, h.1, ih h.2]

theorem totalPotential_congr (h : slots.signatures.Perm slots'.signatures)
    (hsame : ∀ a ∈ slots, ∀ b ∈ slots', a.2.signature = b.2.signature →
      a.2.potential = b.2.potential) : totalPotential slots = totalPotential slots' := by
  rw [totalPotential_eq, totalPotential_eq]
  exact (map_perm h hsame).sum_eq

theorem greatestPotential_eq (h : slots.signatures.Perm slots'.signatures)
    (hsame : ∀ a ∈ slots, ∀ b ∈ slots', a.2.signature = b.2.signature →
      a.2.potential = b.2.potential) : greatestPotential slots = greatestPotential slots' := by
  refine eq_of_forall_ge_iff fun n => ?_
  have hperm := map_perm h hsame
  rw [greatestPotential_le_iff, greatestPotential_le_iff]
  constructor <;> intro hle slot hslot
  · obtain ⟨other, hother, heq⟩ := List.mem_map.mp
      (hperm.symm.subset (List.mem_map_of_mem (f := fun slot => slot.2.potential) hslot))
    exact heq ▸ hle other hother
  · obtain ⟨other, hother, heq⟩ := List.mem_map.mp
      (hperm.subset (List.mem_map_of_mem (f := fun slot => slot.2.potential) hslot))
    exact heq ▸ hle other hother

end Slots

/-! ## Expressions -/

namespace Expr

variable {node : Expr} {c : Rat} {n : Nat}

theorem potential_product (c p : Rat) (factors : Slots) :
    (product c p factors).potential = totalPotential factors := rfl

theorem potential_polynomial (c p : Rat) (terms : Slots) :
    (polynomial c p terms).potential =
      if p = 1 then greatestPotential terms else powerPotential (greatestPotential terms) p := rfl

theorem potential_composite (c p : Rat) (terms : Slots) :
    (composite c p terms).potential =
      if p = 1 then greatestPotential terms else powerPotential (greatestPotential terms) p := rfl

theorem potential_constantBase (c base : Rat) (exponent : Expr) :
    (exponential c (.number base) exponent).potential = 4 := rfl

theorem potential_of_isExpandedSum (h : node.isExpandedSum = true) :
    node.potential = greatestPotential node.slots := by
  cases node <;> simp_all [isExpandedSum, isSum, degreePower, potential_polynomial,
    potential_composite, slots]

theorem le_powerPotential (n : Nat) (p : Rat) : n ≤ powerPotential n p := by
  have : n + 1 ≤ (⌈p⌉₊ + 1) * (n + 1) := Nat.le_mul_of_pos_left _ (Nat.succ_pos _)
  rw [powerPotential]
  omega

/-- The potential of a sum covers that of its terms, whatever the exponent of the sum. -/
theorem potential_le_of_mem_sum (h : node.isSum = true) {slot : Key × Expr}
    (hslot : slot ∈ node.slots) : slot.2.potential ≤ node.potential := by
  have hle : slot.2.potential ≤ greatestPotential node.slots :=
    Slots.greatestPotential_le_iff.mp le_rfl slot hslot
  refine hle.trans ?_
  cases node <;> simp only [isSum, Bool.false_eq_true] at h <;>
    simp only [potential_polynomial, potential_composite, slots] <;> split_ifs
  all_goals first | exact le_rfl | exact le_powerPotential _ _

theorem potential_le_of_mem_slots (h : node.isExpandedSum = true) {slot : Key × Expr}
    (hslot : slot ∈ node.slots) : slot.2.potential ≤ node.potential := by
  rw [potential_of_isExpandedSum h]
  exact Slots.greatestPotential_le_iff.mp le_rfl slot hslot

theorem potential_withPower (h : node.isExpandedSum = true) {p : Rat} (hp : p ≠ 1) :
    (node.withPower p).potential = powerPotential node.potential p := by
  cases node <;> simp_all [isExpandedSum, isSum, degreePower, potential_polynomial,
    potential_composite, withPower]

@[simp] theorem potential_withCoeff : (node.withCoeff c).potential = node.potential := by
  cases node <;> rfl

/-- The potential of an expression is the greatest among its terms. -/
theorem potential_le_iff : node.potential ≤ n ↔ ∀ term ∈ node.terms, term.potential ≤ n := by
  induction node using slots_induction with
  | step node ih =>
      cases hsum : node.isExpandedSum with
      | false => simp [terms_of_not_isExpandedSum hsum]
      | true =>
          rw [potential_of_isExpandedSum hsum, terms_of_isExpandedSum hsum,
            Slots.greatestPotential_le_iff, List.forall_mem_flatMap]
          exact forall₂_congr ih

theorem exists_mem_terms_of_linear_ne_zero {key : Key} (h : node.linear key ≠ 0) :
    ∃ term ∈ node.terms, term.content = key := by
  by_contra hnone
  push Not at hnone
  refine h ?_
  rw [linear]
  generalize node.terms = terms at hnone
  induction terms with
  | nil => rfl
  | cons term rest ih =>
      rw [List.forall_mem_cons] at hnone
      rw [List.map_cons, List.sum_cons, Finsupp.add_apply, ih hnone.2, add_zero,
        Finsupp.single_eq_of_ne (Ne.symm hnone.1)]

end Expr

namespace Reduce

open ExactAlgebra.Expr

variable {node : Expr} {factor c : Rat} {factors : Slots}

theorem potential_scale (hfactor : factor ≠ 0) :
    (scale factor node).potential = node.potential := by
  induction node using slots_induction with
  | step node ih =>
      cases hsum : node.isExpandedSum with
      | false => rw [scale_of_not_isExpandedSum hfactor hsum, potential_withCoeff]
      | true =>
          have hsum' : (scale factor node).isExpandedSum = true := by
            rwa [isExpandedSum_scale hfactor]
          rw [potential_of_isExpandedSum hsum, potential_of_isExpandedSum hsum',
            slots_scale hfactor hsum, Slots.greatestPotential_congr ih]

theorem potential_scale_le (factor : Rat) (node : Expr) :
    (scale factor node).potential ≤ node.potential := by
  by_cases hfactor : factor = 0
  · rw [hfactor, scale_zero]
    exact Nat.zero_le _
  · exact (potential_scale hfactor).le

theorem potential_collapse_le (c : Rat) (factors : Slots) :
    (collapse (.product c 1 factors)).potential ≤ totalPotential factors := by
  match factors with
  | [] => exact Nat.zero_le _
  | [slot] =>
      rw [collapse, totalPotential, totalPotential, add_zero]
      exact potential_scale_le _ _
  | first :: second :: rest => rw [collapse_two_le (by simp), potential_product]

end Reduce

/-! ## Contents -/

namespace Canonical

open ExactAlgebra.Expr

variable {rules : Discipline} {a b node term : Expr} {n : Nat}

theorem constantTerm_eq_of_signature (ha : Canonical rules a) (hb : Canonical rules b)
    (h : a.signature = b.signature) : constantTerm a = constantTerm b := by
  have hnumbers := isNumber_eq_of_content (content_eq_of_signature h)
  cases hnumber : a.isNumber with
  | true =>
      obtain ⟨value, rfl⟩ := exists_eq_number hnumber
      obtain ⟨value', rfl⟩ := exists_eq_number (hnumbers.symm.trans hnumber)
      rfl
  | false =>
      rw [constantTerm_eq_linear ha hnumber,
        constantTerm_eq_linear hb (hnumbers.symm.trans hnumber), ha.linear_eq_of_signature hb h]

/-- The potential depends on the content alone. -/
theorem potential_eq_of_content (ha : Canonical rules a) (hb : Canonical rules b)
    (h : a.content = b.content) : a.potential = b.potential := by
  have hgroup := group_eq_of_content h
  induction ha generalizing b with
  | number | symbol | call =>
      cases b <;> simp only [group, reduceCtorEq] at hgroup
      rfl
  | radical =>
      cases b <;> simp only [group, reduceCtorEq] at hgroup
      simp only [content, Key.tuple, Key.cons.injEq, Key.rational.injEq, true_and, and_true] at h
      rw [potential, potential, h.1]
  | constantBase =>
      cases b <;> simp only [group, reduceCtorEq] at hgroup
      simp only [content, Key.tuple, Key.cons.injEq, Key.rational.injEq, true_and, and_true] at h
      obtain ⟨value, rfl⟩ := exists_eq_number (isNumber_of_content h.1.2.symm)
      rw [potential_constantBase, potential_constantBase]
  | plainBase _ _ _ hbase hexponent _ ihbase _ =>
      cases hb <;> simp only [group, reduceCtorEq] at hgroup
      case constantBase =>
        simp only [content, Key.tuple, Key.cons.injEq, Key.rational.injEq, true_and, and_true] at h
        obtain ⟨value, rfl⟩ := exists_eq_number (isNumber_of_content h.1.2)
        rw [potential_constantBase, potential_constantBase]
      case plainBase hbase' hexponent' _ =>
        simp only [content, Key.tuple, Key.cons.injEq, Key.rational.injEq, true_and, and_true] at h
        obtain ⟨⟨-, hcontent⟩, hexponents⟩ := h
        rw [potential, potential, isNumber_eq_of_content hcontent, isSum_eq_of_content hcontent,
          ihbase hbase' hcontent (group_eq_of_content hcontent),
          hexponent.constantTerm_eq_of_signature hexponent' (by simp [signature, hexponents])]
  | @polynomial coeff power terms hsum hrules hslots hterms ih =>
      have hperm := (Canonical.polynomial hsum hrules hslots hterms).signatures_perm hb h
      cases hb <;> simp only [group, reduceCtorEq] at hgroup
      case polynomial coeff' power' terms' _ _ _ hterms' =>
        have hgreatest : greatestPotential terms = greatestPotential terms' :=
          Slots.greatestPotential_eq hperm fun slot hslot other hother hsame =>
            ih slot hslot (hterms' other hother) (content_eq_of_signature hsame)
              (group_eq_of_content (content_eq_of_signature hsame))
        simp only [content, Key.tuple, Key.cons.injEq, Key.rational.injEq, and_true] at h
        rw [potential_polynomial, potential_polynomial, hgreatest, h.2.2]
  | product hcoeff hslots hfactors ih =>
      have hperm := (Canonical.product hcoeff hslots hfactors).signatures_perm hb h
      cases hb <;> simp only [group, reduceCtorEq] at hgroup
      case product hfactors' =>
        rw [potential_product, potential_product]
        exact Slots.totalPotential_congr hperm fun slot hslot other hother hsame =>
          ih slot hslot (hfactors' other hother) (content_eq_of_signature hsame)
            (group_eq_of_content (content_eq_of_signature hsame))
  | @composite coeff power terms hsum hrules hslots hterms ih =>
      have hperm := (Canonical.composite hsum hrules hslots hterms).signatures_perm hb h
      cases hb <;> simp only [group, reduceCtorEq] at hgroup
      case composite coeff' power' terms' _ _ _ hterms' =>
        have hgreatest : greatestPotential terms = greatestPotential terms' :=
          Slots.greatestPotential_eq hperm fun slot hslot other hother hsame =>
            ih slot hslot (hterms' other hother) (content_eq_of_signature hsame)
              (group_eq_of_content (content_eq_of_signature hsame))
        simp only [content, Key.tuple, Key.cons.injEq, Key.rational.injEq, and_true] at h
        rw [potential_composite, potential_composite, hgreatest, h.2.2]

/-! ## Sums -/

/-- The terms do not cancel. -/
theorem linear_ne_zero_of_mem_terms (h : Canonical rules node) (hterm : term ∈ node.terms)
    (hcoeff : term.coeff ≠ 0) : node.linear term.content ≠ 0 := by
  induction node using slots_induction with
  | step node ih =>
      cases hsum : node.isExpandedSum with
      | false =>
          rw [terms_of_not_isExpandedSum hsum, List.mem_singleton] at hterm
          rw [linear_of_not_isExpandedSum hsum, ← hterm, Finsupp.single_eq_same]
          exact hcoeff
      | true =>
          rw [terms_of_isExpandedSum hsum] at hterm
          obtain ⟨slot, hslot, hterm⟩ := List.mem_flatMap.mp hterm
          have hne := ih slot hslot (h.slots slot hslot) hterm
          rw [h.linear_eq_of_mem hsum hslot hne]
          exact hne

/-- The terms of a sum are those of its operands, up to coefficients. -/
theorem potential_le_of_linear (ha : Canonical rules a) (hb : Canonical rules b)
    (h : Canonical rules node) (hlinear : node.linear = a.linear + b.linear) :
    node.potential ≤ max a.potential b.potential := by
  refine potential_le_iff.mpr fun term hterm => ?_
  have hcanonical := h.canonical_of_mem_terms hterm
  by_cases hcoeff : term.coeff = 0
  · cases hnumber : term.isNumber with
    | false => exact absurd hcoeff (hcanonical.coeff_ne_zero hnumber)
    | true =>
        obtain ⟨value, rfl⟩ := exists_eq_number hnumber
        exact Nat.zero_le _
  have hfrom {operand : Expr} (hoperand : Canonical rules operand)
      (hne : operand.linear term.content ≠ 0) : term.potential ≤ operand.potential := by
    obtain ⟨other, hother, hcontent⟩ := exists_mem_terms_of_linear_ne_zero hne
    rw [hcanonical.potential_eq_of_content (hoperand.canonical_of_mem_terms hother) hcontent.symm]
    exact potential_le_iff.mp le_rfl other hother
  have hne := h.linear_ne_zero_of_mem_terms hterm hcoeff
  rw [hlinear, Finsupp.add_apply] at hne
  by_cases hane : a.linear term.content = 0
  · rw [hane, zero_add] at hne
    exact (hfrom hb hne).trans (le_max_right _ _)
  · exact (hfrom ha hane).trans (le_max_left _ _)

end Canonical

/-! ## Loads -/

namespace Expr

variable {node : Expr} {c : Rat}

/-- How many layers are taken apart before factors meet: a product gives its factors, and a
sum its terms, which may be sums of powers again. -/
def layers (node : Expr) : Nat := node.nesting + if node.group = .product then 1 else 0

/-- What decreases from a product to the products that it is made from. -/
noncomputable def load (node : Expr) : Nat := 5 * node.potential + node.layers

@[simp] theorem load_withCoeff : (node.withCoeff c).load = node.load := by
  simp [load, layers]

theorem layers_le_one_of_isFlat (h : node.IsFlat) : node.layers ≤ 1 := by
  cases node <;> simp only [layers, nesting, group, reduceCtorEq, if_false, if_true] <;>
    split_ifs <;> simp_all [IsFlat, isExpandedSum, isSum, group, degreePower]

theorem layers_of_isFactor (h : node.isFactor = true) : node.layers = 0 := by
  obtain ⟨-, hgroup, hsum⟩ := isFactor_iff.mp h
  rw [layers, nesting_of_not_isExpandedSum hsum, if_neg hgroup]

theorem layers_le_two (node : Expr) : node.layers ≤ 2 := by
  unfold layers
  split_ifs with hgroup
  · have hsum : node.isExpandedSum = false := by
      cases node <;> simp_all [group, isExpandedSum, isSum]
    rw [nesting_of_not_isExpandedSum hsum]
    omega
  · have := nesting_le_two node
    omega

theorem load_le (node : Expr) : node.load ≤ 5 * node.potential + 2 :=
  Nat.add_le_add_left (layers_le_two node) _

theorem load_le_of_not_isExpandedSum (h : node.isExpandedSum = false) :
    node.load ≤ 5 * node.potential + 1 :=
  Nat.add_le_add_left (layers_le_one_of_isFlat (isFlat_of_not_isExpandedSum h)) _

theorem load_product (c p : Rat) (factors : Slots) :
    (product c p factors).load = 5 * totalPotential factors + 1 := by
  rw [load, potential_product]
  rfl

theorem load_of_isFactor (h : node.isFactor = true) : node.load = 5 * node.potential := by
  rw [load, layers_of_isFactor h, add_zero]

end Expr

namespace Canonical

open ExactAlgebra.Expr

variable {rules : Discipline} {node : Expr}

/-- The terms of a sum weigh less than the sum. -/
theorem load_lt (h : Canonical rules node) (hsum : node.isExpandedSum = true)
    {slot : Key × Expr} (hslot : slot ∈ node.slots) : slot.2.load < node.load := by
  have hpotential := potential_le_of_mem_slots hsum hslot
  have hlayers : slot.2.layers < node.layers := by
    cases h <;> simp only [isExpandedSum, isSum, Bool.false_and, Bool.false_eq_true] at hsum
    case polynomial coeff power terms _ _ hslots _ =>
      obtain rfl : power = 1 := by simpa [degreePower] using hsum
      rw [layers_of_isFactor (isFactor_of_isPowered (hslots.powered slot hslot))]
      exact Nat.zero_lt_one
    case composite coeff power terms _ _ hslots _ =>
      obtain rfl : power = 1 := by simpa [degreePower] using hsum
      exact Nat.lt_succ_of_le (layers_le_one_of_isFlat (hslots.flat slot hslot))
  unfold load
  omega

end Canonical

end ExactAlgebra
