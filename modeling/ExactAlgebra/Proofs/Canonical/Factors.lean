import ExactAlgebra.Proofs.Canonical.Separate
import ExactAlgebra.Proofs.Canonical.Step
import ExactAlgebra.Proofs.Canonical.Arithmetic

/-!
# Products from their factors

Factors with different keys, multiplied one after the other with the radicals first,
stand side by side in the product, provided that the radicals are separate and the
primes in their bases small.
-/

namespace ExactAlgebra

open ExactAlgebra.Expr

/-- Radicals that combine to themselves. -/
def Discipline.separate : Discipline :=
  { Discipline.free with radicals := fun roots => Reduce.IsSeparate roots ∧ Reduce.IsSmall roots }

namespace Reduce

variable {mode : Mode} {fuel : Nat} {slots slots' : Slots} {factor a b : Expr} {c : Rat}

theorem perm_part {rules : Discipline} (h : IsProductPart rules slots)
    (hradicals : rules.radicals (Slots.radicals slots')) (hperm : slots.Perm slots') :
    IsProductPart rules slots' where
  distinct := h.distinct.perm hperm
  key := fun slot hslot => h.key slot (hperm.mem_iff.mpr hslot)
  coeff := fun slot hslot => h.coeff slot (hperm.mem_iff.mpr hslot)
  factor := fun slot hslot => h.factor slot (hperm.mem_iff.mpr hslot)
  radicals := hradicals

theorem radicals_perm (hperm : slots.Perm slots') :
    (Slots.radicals slots).Perm (Slots.radicals slots') := hperm.filterMap _

theorem separate_perm (h : IsProductPart .separate slots) (hperm : slots.Perm slots') :
    IsProductPart .separate slots' := by
  have hradicals := radicals_perm hperm
  obtain ⟨hseparate, hsmall⟩ := h.radicals
  exact perm_part h ⟨hseparate.perm hradicals,
    fun root hroot => hsmall root (hradicals.mem_iff.mpr hroot)⟩ hperm

theorem Discipline.separate_hereditary : Discipline.separate.Hereditary where
  constant _ _ := trivial
  nothing := ⟨isSeparate_nil, by simp [IsSmall]⟩
  sublist hsub h := ⟨h.1.sublist hsub, fun root hroot => h.2 root (hsub.subset hroot)⟩

/-! ## Coefficients of products -/

theorem scale_collapse {rules : Discipline} {r : Rat} (hr : r ≠ 0) (hc : c ≠ 0)
    (h : IsProductPart rules slots) :
    scale r (collapse (.product c 1 slots)) = collapse (.product (c * r) 1 slots) := by
  match slots with
  | [] => exact scale_number r c
  | [(key, factor)] =>
      have hcoeff : factor.coeff = 1 := h.coeff _ List.mem_cons_self
      have hfactor : factor.isFactor = true := h.factor _ List.mem_cons_self
      rw [collapse, collapse, scale_factor hc hcoeff hfactor,
        scale_factor (mul_ne_zero hc hr) hcoeff hfactor,
        scale_of_not_isExpandedSum hr
          (by rw [isExpandedSum_withCoeff]; exact (isFactor_iff.mp hfactor).2.2)]
      have hnumber := (isFactor_iff.mp hfactor).1
      cases factor <;> simp_all [isNumber, withCoeff, coeff]
  | first :: second :: rest => exact scale_product hr c _

theorem withCoeff_one_of_coeff (h : a.coeff = 1) (c : Rat) : (a.withCoeff c).withCoeff 1 = a := by
  rw [withCoeff_withCoeff, withCoeff_of_coeff_eq h]

theorem collapse_parts {rules : Discipline} (hc : c ≠ 0) (h : IsProductPart rules slots)
    (hne : slots ≠ []) :
    (collapse (.product c 1 slots)).isNumber = false ∧
      (collapse (.product c 1 slots)).coeff = c ∧
      (collapse (.product c 1 slots)).withCoeff 1 = collapse (.product 1 1 slots) := by
  match slots, hne with
  | [slot], _ =>
      have hcoeff := h.coeff slot List.mem_cons_self
      have hfactor := h.factor slot List.mem_cons_self
      have hnumber := (isFactor_iff.mp hfactor).1
      rw [collapse, collapse, scale_factor hc hcoeff hfactor, scale_one]
      exact ⟨(isNumber_withCoeff _ _).trans hnumber, coeff_withCoeff _ _,
        withCoeff_one_of_coeff hcoeff c⟩
  | first :: second :: rest, _ => exact ⟨rfl, rfl, rfl⟩

/-! ## Two factors -/

theorem eq_radicalOf (h : a.group = .radical) (hcoeff : a.coeff = 1) :
    ∃ root, a = radicalOf root := by
  cases a <;> simp only [group, reduceCtorEq] at h
  case radical coeff base power =>
    obtain rfl : coeff = 1 := hcoeff
    exact ⟨(base, power), rfl⟩

/-- Two separate radicals. -/
theorem exists_multiplyContent_radicals (fuel : Nat) (hmode : mode.numeric = false)
    {root root' : Rat × Rat} (hkey : root.1 ≠ root'.1)
    (h : IsProductPart .separate (keyed [radicalOf root, radicalOf root'])) :
    ∃ slots', slots'.Perm (keyed [radicalOf root, radicalOf root']) ∧
      multiplyContent mode (fuel + 2) (radicalOf root) (radicalOf root') =
        .ok (.product 1 1 slots') := by
  obtain ⟨hseparate, hsmall⟩ := h.radicals
  obtain ⟨roots, hform, hperm⟩ := exists_combineRadicals_eq hmode hseparate hsmall
  have hslots : (keyed (roots.map radicalOf)).Perm (keyed [radicalOf root, radicalOf root']) :=
    (hperm.map radicalOf).map _
  have htwo : 2 ≤ (roots.map radicalOf).length := by
    rw [List.length_map, hperm.length_eq]
    exact le_rfl
  have hbuild : buildProduct mode (fuel + 1) 1 (roots.map radicalOf) [] =
      .ok (.product 1 1 (keyed (roots.map radicalOf))) := by
    rw [buildProduct.eq_def, productOf_of_two_le htwo (h.distinct.perm hslots.symm)]
    rfl
  have hroots : Slots.radicals (keyed [radicalOf root, radicalOf root']) =
      [(root.1, root.2), (root'.1, root'.2)] := rfl
  rw [hroots] at hform
  refine ⟨keyed (roots.map radicalOf), hslots, ?_⟩
  rw [multiplyContent.eq_def]
  simp only [radicalOf, isExpandedSum, isSum, Bool.false_and, Bool.or_self, Bool.false_eq_true,
    if_false, multiplicativeKey, isAtomSum, baseKey, Key.cons.injEq, Key.rational.injEq, hkey,
    false_and, hform, bind, Except.bind]
  exact hbuild

/-- Two factors with different keys. -/
theorem exists_multiplyContent_pair (fuel : Nat) (hmode : mode.numeric = false)
    (h : IsProductPart .separate (keyed [a, b])) :
    ∃ slots', slots'.Perm (keyed [a, b]) ∧
      multiplyContent mode (fuel + 2) a b = .ok (.product 1 1 slots') := by
  have hafactor : a.isFactor = true := h.factor (a.multiplicativeKey, a) (by simp [keyed])
  have hbfactor : b.isFactor = true := h.factor (b.multiplicativeKey, b) (by simp [keyed])
  have hkey : a.multiplicativeKey ≠ b.multiplicativeKey := by
    have := h.distinct
    simp [keyed, Slots.Distinct] at this
    exact this
  obtain ⟨hanumber, hagroup, hasum⟩ := isFactor_iff.mp hafactor
  obtain ⟨hbnumber, hbgroup, hbsum⟩ := isFactor_iff.mp hbfactor
  by_cases hradical : a.group = .radical ∧ b.group = .radical
  · obtain ⟨root, rfl⟩ := eq_radicalOf hradical.1
      (h.coeff (a.multiplicativeKey, a) (by simp [keyed]))
    obtain ⟨root', rfl⟩ := eq_radicalOf hradical.2
      (h.coeff (b.multiplicativeKey, b) (by simp [keyed]))
    exact exists_multiplyContent_radicals fuel hmode
      (by simpa [multiplicativeKey_radicalOf] using hkey) h
  · refine ⟨keyed [a, b], .refl _, ?_⟩
    have hpair : pairFactors a b = .product 1 1 (keyed [a, b]) :=
      congrArg _ (Slots.ofList_pair hkey)
    rw [multiplyContent.eq_def, ← hpair]
    cases a <;> simp [isNumber, group] at hanumber hagroup <;>
      cases b <;> simp [isNumber, group] at hbnumber hbgroup <;>
      simp_all [group]

/-! ## A product and one more factor -/

theorem slots_eq_keyed (hkey : ∀ slot ∈ slots, slot.1 = slot.2.multiplicativeKey)
    (hcoeff : ∀ slot ∈ slots, slot.2.coeff = 1)
    (hradical : ∀ slot ∈ slots, slot.2.group = .radical) :
    slots = keyed ((Slots.radicals slots).map radicalOf) ∧ (splitRadicals slots).2 = [] := by
  induction slots with
  | nil => exact ⟨rfl, rfl⟩
  | cons slot rest ih =>
      obtain ⟨key, child⟩ := slot
      rw [List.forall_mem_cons] at hkey hcoeff hradical
      obtain ⟨root, rfl⟩ := eq_radicalOf hradical.1 hcoeff.1
      obtain ⟨hrest, hothers⟩ := ih hkey.2 hcoeff.2 hradical.2
      constructor
      · refine List.cons_eq_cons.mpr ⟨Prod.ext hkey.1 rfl, hrest⟩
      · simpa [splitRadicals, radicalOf, group] using hothers

theorem exists_insertRadical (fuel : Nat) (hmode : mode.numeric = false)
    (h : IsProductPart .separate (slots ++ keyed [factor]))
    (hradical : ∀ slot ∈ slots ++ keyed [factor], slot.2.group = .radical)
    (htwo : 2 ≤ slots.length) :
    ∃ slots', slots'.Perm (slots ++ keyed [factor]) ∧
      insertRadical mode (fuel + 1) (.product 1 1 slots) factor = .ok (.product 1 1 slots') := by
  have hall := slots_eq_keyed h.key h.coeff hradical
  obtain ⟨hkey, -⟩ := List.forall_mem_append.mp h.key
  obtain ⟨hcoeff, -⟩ := List.forall_mem_append.mp h.coeff
  obtain ⟨hold, -⟩ := List.forall_mem_append.mp hradical
  obtain ⟨hseparate, hsmall⟩ := h.radicals
  obtain ⟨roots, hform, hperm⟩ := exists_combineRadicals_eq hmode hseparate hsmall
  rw [Slots.radicals_append] at hform
  have hslots : (keyed (roots.map radicalOf)).Perm (slots ++ keyed [factor]) := by
    rw [hall.1]
    exact (hperm.map radicalOf).map _
  have hplace := placeFactors_of_distinct
    (show Slots.Distinct ([] ++ keyed (roots.map radicalOf)) from h.distinct.perm hslots.symm)
  refine ⟨keyed (roots.map radicalOf), hslots, ?_⟩
  have hlength : 2 ≤ (keyed (roots.map radicalOf)).length := by
    rw [hslots.length_eq, List.length_append]
    omega
  have hothers := (slots_eq_keyed hkey hcoeff hold).2
  have hcombine : combineRadicals mode ((splitRadicals slots).1 ++
      (splitRadicals [(factor.multiplicativeKey, factor)]).1) =
        .ok ⟨1, roots.map radicalOf, []⟩ := hform
  rw [insertRadical.eq_def]
  simp only [Expr.slots, hothers, hcombine, hplace, bind, Except.bind, Expr.withCoeff,
    Expr.withSlots, Expr.coeff, mul_one, List.nil_append]
  rw [collapse_two_le hlength]
  rfl

theorem exists_insertFactor (fuel : Nat) (hmode : mode.numeric = false)
    (h : IsProductPart .separate (slots ++ keyed [factor])) (htwo : 2 ≤ slots.length)
    (horder : factor.group = .radical → ∀ slot ∈ slots, slot.2.group = .radical) :
    ∃ slots', slots'.Perm (slots ++ keyed [factor]) ∧
      insertFactor mode (fuel + 2) (.product 1 1 slots) factor = .ok (.product 1 1 slots') := by
  have hfactor : factor.isFactor = true := h.factor (factor.multiplicativeKey, factor)
    (by simp [keyed])
  have hfresh : Slots.find? factor.multiplicativeKey slots = none := by
    refine Slots.find?_eq_none_iff.mpr fun slot hslot hkey => ?_
    have hdistinct := h.distinct
    rw [Slots.Distinct, List.map_append, List.nodup_append] at hdistinct
    exact hdistinct.2.2 _ (List.mem_map_of_mem hslot) factor.multiplicativeKey
      (by simp [keyed]) hkey
  rw [insertFactor.eq_def]
  simp only [(isFactor_iff.mp hfactor).2.2, Bool.false_eq_true, if_false, Expr.slots, hfresh,
    Bool.and_true]
  by_cases hradical : factor.group = .radical
  · have hbeq : (factor.group == Group.radical) = true := by simp [hradical]
    rw [if_pos hbeq]
    exact exists_insertRadical _ hmode h
      (List.forall_mem_append.mpr ⟨horder hradical, by simpa [keyed] using hradical⟩) htwo
  · rw [if_neg (by simp [hradical])]
    exact ⟨_, .refl _, rfl⟩

/-- A factor joins one factor with a coefficient. -/
theorem exists_combineFactors_pair (fuel : Nat) (hmode : mode.numeric = false) (hc : c ≠ 0)
    (h : IsProductPart .separate (keyed [a, b])) :
    ∃ slots', slots'.Perm (keyed [a, b]) ∧
      combineFactors mode (fuel + 3) (a.withCoeff c) b = .ok (.product c 1 slots') := by
  have hafactor : a.isFactor = true := h.factor (a.multiplicativeKey, a) (by simp [keyed])
  have hbfactor : b.isFactor = true := h.factor (b.multiplicativeKey, b) (by simp [keyed])
  have hacoeff : a.coeff = 1 := h.coeff (a.multiplicativeKey, a) (by simp [keyed])
  have hbcoeff : b.coeff = 1 := h.coeff (b.multiplicativeKey, b) (by simp [keyed])
  have hanumber : (a.withCoeff c).isNumber = false := by
    rw [isNumber_withCoeff]
    exact (isFactor_iff.mp hafactor).1
  have hscale : ∀ slots' : Slots, (Except.ok (.product 1 1 slots') : Except Fault Expr).map
      (scale ((a.withCoeff c).coeff * b.coeff)) = .ok (.product c 1 slots') := by
    intro slots'
    rw [coeff_withCoeff, hbcoeff, mul_one, Except.map, scale_product hc, one_mul]
  obtain ⟨x, y, ⟨rfl, rfl⟩ | ⟨rfl, rfl⟩, hstep⟩ :=
    combineFactors_eq_map mode hanumber (isFactor_iff.mp hbfactor).1
  · obtain ⟨slots', hperm, hcontent⟩ := exists_multiplyContent_pair fuel hmode h
    refine ⟨slots', hperm, ?_⟩
    rw [hstep, withCoeff_one_of_coeff hacoeff, withCoeff_of_coeff_eq hbcoeff, hcontent, hscale]
  · have hswap : (keyed [a, x]).Perm (keyed [x, a]) := .swap _ _ _
    obtain ⟨slots', hperm, hcontent⟩ := exists_multiplyContent_pair fuel hmode
      (separate_perm h hswap)
    refine ⟨slots', hperm.trans hswap.symm, ?_⟩
    rw [hstep, withCoeff_one_of_coeff hacoeff, withCoeff_of_coeff_eq hbcoeff, hcontent, hscale]

/-- A factor joins a product. -/
theorem exists_combineFactors_product (fuel : Nat) (hmode : mode.numeric = false) (hc : c ≠ 0)
    (h : IsProductPart .separate (slots ++ keyed [factor])) (htwo : 2 ≤ slots.length)
    (horder : factor.group = .radical → ∀ slot ∈ slots, slot.2.group = .radical) :
    ∃ slots', slots'.Perm (slots ++ keyed [factor]) ∧
      combineFactors mode (fuel + 4) (.product c 1 slots) factor =
        .ok (.product c 1 slots') := by
  have hfactor : factor.isFactor = true := h.factor (factor.multiplicativeKey, factor)
    (by simp [keyed])
  have hcoeff : factor.coeff = 1 := h.coeff (factor.multiplicativeKey, factor) (by simp [keyed])
  obtain ⟨slots', hperm, hinsert⟩ := exists_insertFactor fuel hmode h htwo horder
  obtain ⟨hleft, hright⟩ := multiplyContent_insert mode (fuel + 2) 1 slots hfactor
  have hscale : (Except.ok (.product 1 1 slots') : Except Fault Expr).map
      (scale ((Expr.product c 1 slots).coeff * factor.coeff)) = .ok (.product c 1 slots') := by
    rw [Expr.coeff, hcoeff, mul_one, Except.map, scale_product hc, one_mul]
  refine ⟨slots', hperm, ?_⟩
  obtain ⟨x, y, ⟨rfl, rfl⟩ | ⟨rfl, rfl⟩, hstep⟩ := combineFactors_eq_map mode
    (show (Expr.product c 1 slots).isNumber = false from rfl) (isFactor_iff.mp hfactor).1
  · rw [hstep, withCoeff_of_coeff_eq hcoeff, Expr.withCoeff, hleft, hinsert, hscale]
  · rw [hstep, withCoeff_of_coeff_eq hcoeff, Expr.withCoeff, hright, hinsert, hscale]

/-- A factor joins the factors before it. -/
theorem exists_combineFactors_factor (fuel : Nat) (hmode : mode.numeric = false) (hc : c ≠ 0)
    (h : IsProductPart .separate (slots ++ keyed [factor]))
    (horder : factor.group = .radical → ∀ slot ∈ slots, slot.2.group = .radical) :
    ∃ slots', slots'.Perm (slots ++ keyed [factor]) ∧
      combineFactors mode (fuel + 4) (collapse (.product c 1 slots)) factor =
        .ok (collapse (.product c 1 slots')) := by
  match slots with
  | [] => exact ⟨keyed [factor], .refl _, (combineFactors_number mode _ c factor).2⟩
  | [(key, other)] =>
      have hother : other.isFactor = true := h.factor (key, other) (by simp)
      have hone : other.coeff = 1 := h.coeff (key, other) (by simp)
      obtain rfl : key = other.multiplicativeKey := h.key (key, other) (by simp)
      obtain ⟨slots', hperm, hok⟩ := exists_combineFactors_pair (fuel + 1) hmode hc h
      refine ⟨slots', hperm, ?_⟩
      rw [collapse, scale_factor hc hone hother, hok, collapse_two_le]
      rw [hperm.length_eq]
      exact le_rfl
  | first :: second :: rest =>
      have htwo : 2 ≤ (first :: second :: rest).length := by simp
      obtain ⟨slots', hperm, hok⟩ := exists_combineFactors_product fuel hmode hc h htwo
        horder
      refine ⟨slots', hperm, ?_⟩
      rw [collapse_two_le htwo, hok, collapse_two_le]
      rw [hperm.length_eq, List.length_append]
      omega

end Reduce

namespace Arithmetic

open Reduce

variable {mode : Mode} {slots slots' : Slots} {factor : Expr} {c : Rat}

/-- A factor joins the factors before it. -/
theorem exists_multiply_factor (hmode : mode.numeric = false) (hc : c ≠ 0)
    (h : IsProductPart .separate (slots ++ keyed [factor]))
    (horder : factor.group = .radical → ∀ slot ∈ slots, slot.2.group = .radical) :
    ∃ slots', slots'.Perm (slots ++ keyed [factor]) ∧
      multiply mode (collapse (.product c 1 slots)) factor =
        .ok (collapse (.product c 1 slots')) := by
  obtain ⟨fuel, hfuel⟩ := exists_multiply_eq mode (collapse (.product c 1 slots)) factor
  rw [hfuel]
  exact exists_combineFactors_factor _ hmode hc h horder

theorem content_ne_constantMark {a : Expr} (h : a.isNumber = false) :
    a.content ≠ constantMark := by
  cases a <;> simp [content, constantMark, Key.tuple, isNumber] at h ⊢

theorem numberPower_inverse (mode : Mode) (fuel : Nat) {d : Rat} (hd : d ≠ 0) :
    numberPower mode (fuel + 1) d (-1) = .ok (.number d⁻¹) := by
  have hpower : Ratio.power d (-1) = d⁻¹ := by
    rw [Ratio.power, if_neg (by omega)]
    exact congrArg _ (pow_one d)
  rw [numberPower.eq_def]
  by_cases hone : d = 1
  · simp [hone]
  · simp only [hd, if_false, hone, or_false, show (-1 : Rat) ≠ 0 by norm_num,
      show Ratio.isInteger (-1) = true by rfl, if_true]
    exact congrArg (fun value => Except.ok (Expr.number value)) hpower

theorem divide_number (mode : Mode) (a : Expr) {d : Rat} (hd : d ≠ 0) :
    divide mode a (.number d) = .ok (scale d⁻¹ a) := by
  cases hnumber : a.isNumber with
  | true =>
      obtain ⟨v, rfl⟩ : ∃ v, a = .number v := by cases a <;> simp_all [isNumber]
      have hquotient : quotient mode (.number v) (.number d) = .ok (.number (v / d)) := by
        simp only [quotient, isNumber, Bool.and_self, Bool.true_or, if_true, Expr.coeff,
          Strict.divide, hd, if_false]
        rfl
      rw [divide, hquotient, guarded_ok, scale_number, div_eq_mul_inv]
  | false =>
      have hne : ¬ ((a.isNumber && (Expr.number d).isNumber) ||
          a.content == (Expr.number d).content) = true := by
        simpa [hnumber, content] using content_ne_constantMark hnumber
      have hinverse (fuel : Nat) : raiseTo mode (fuel + 2) (.number d) (.number (-1)) =
          .ok (.number d⁻¹) := by
        rw [raiseTo.eq_def]
        exact numberPower_inverse mode fuel hd
      obtain ⟨fuel, hfuel⟩ := exists_settled_eq
        fun depth => raiseTo mode depth (.number d) (.number (-1))
      obtain ⟨fuel', hfuel'⟩ := exists_multiply_eq mode a (.number d⁻¹)
      have hquotient : quotient mode a (.number d) = .ok (scale d⁻¹ a) := by
        rw [quotient, if_neg hne, hfuel, hinverse]
        change multiply mode a (.number d⁻¹) = _
        rw [hfuel', (combineFactors_number mode _ d⁻¹ a).1]
      rw [divide, hquotient, guarded_ok]

end Arithmetic

end ExactAlgebra
