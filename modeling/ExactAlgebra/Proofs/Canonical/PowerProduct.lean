import ExactAlgebra.Proofs.Canonical.Identity
import ExactAlgebra.Proofs.Canonical.Plain
import ExactAlgebra.Proofs.Value.Root

/-!
# Products of roots and of a power of a constant

A power of a positive rational without large primes is a product of roots, beside which
stands at most one power of the reduced base, with an exponent that has no constant term.
The product of two such powers adds the exponents of the primes and the coefficients of
the exponents, and both determine the identity of the product.
-/

namespace ExactAlgebra

open ExactAlgebra.Expr

namespace Reduce

variable {mode : Mode} {fuel : Nat} {root c c' : Rat} {groups groups' : List (Rat × Nat)}
  {roots roots' : List (Rat × Rat)} {total total' : Key →₀ Rat} {powers factors : List Expr}
  {slots slots' : Slots} {a b node exponent : Expr}

/-! ## Exponents -/

/-- The sum of two exponents that are expressions. -/
theorem exists_addExponents {rules : Discipline}
    (hconstant : ∀ value, value ≠ 0 → rules.constant value) (ha : Canonical rules a)
    (hb : Canonical rules b) :
    ∃ sum, addExponents (asExponent a) (asExponent b) = .ok (asExponent sum) ∧
      Canonical rules sum ∧ sum.linear = a.linear + b.linear := by
  obtain ⟨sum, hadd, hsum, hlinear⟩ := totals_plus hconstant ha hb
  by_cases hnumbers : a.isNumber = true ∧ b.isNumber = true
  · obtain ⟨p, rfl⟩ := exists_eq_number hnumbers.1
    obtain ⟨q, rfl⟩ := exists_eq_number hnumbers.2
    refine ⟨.number (p + q), rfl, .number _, ?_⟩
    rw [linear_number, linear_number, linear_number, Finsupp.single_add]
  · refine ⟨sum, ?_, hsum, hlinear⟩
    cases a <;> cases b <;> simp only [isNumber, and_self, not_true_eq_false] at hnumbers <;>
      simp only [addExponents, asExponent, asNode, hadd, bind, Except.bind] <;> rfl

theorem asExponent_asNode_asExponent (node : Expr) :
    asExponent (asNode (asExponent node)) = asExponent node := by
  cases node <;> rfl

theorem asExponent_of_not_isNumber (h : node.isNumber = false) :
    asExponent node = .symbolic node := by
  cases node <;> first | rfl | cases h

/-! ## Powers of a reduced base -/

/-- The factors beside the roots: none, or a power of a reduced base, of which the exponent
has some coefficients. -/
inductive IsPowerPart (root : Rat) : (Key →₀ Rat) → List Expr → Prop
  | nil : IsPowerPart root 0 []
  | power {exponent : Expr} (hexponent : Canonical .proper exponent)
      (hnumber : exponent.isNumber = false) (hconstant : exponent.linear constantMark = 0) :
      IsPowerPart root exponent.linear [.exponential 1 (.number root) exponent]

/-- A base to a power without constant term. -/
theorem exists_raiseBase (mode : Mode) (fuel : Nat) (hzero : root ≠ 0) (hone : root ≠ 1)
    (hreduced : IsReduced root) (h : Canonical .proper exponent)
    (hconstant : exponent.linear constantMark = 0) :
    ∃ powers, IsPowerPart root exponent.linear powers ∧
      raiseBase mode (fuel + 2) (.number root) (asExponent exponent) =
        .ok (collapse (.product 1 1 (keyed powers))) := by
  cases hnumber : exponent.isNumber with
  | true =>
      obtain ⟨value, rfl⟩ := exists_eq_number hnumber
      obtain rfl : value = 0 := by simpa using hconstant
      refine ⟨[], ?_, ?_⟩
      · rw [linear_number, Finsupp.single_zero]
        exact .nil
      · rw [raiseBase.eq_def]
        simp only [asExponent, asNode]
        rw [numberPower.eq_def]
        simp only [hzero, if_false, true_or, if_true]
        rfl
  | false =>
      refine ⟨_, .power h hnumber hconstant, ?_⟩
      have hterm : constantTerm exponent = 0 := (constantTerm_eq_linear h hnumber).trans hconstant
      rw [asExponent_of_not_isNumber hnumber,
        raiseBase_constantBase hzero hone (hreduced exponent) hterm hnumber]
      exact congrArg Except.ok (scale_one _).symm

/-- Two powers of one base. -/
theorem exists_combinePowers (mode : Mode) (fuel : Nat) (hzero : root ≠ 0) (hone : root ≠ 1)
    (hreduced : IsReduced root) (ha : Canonical .proper a) (hb : Canonical .proper b)
    (hanumber : a.isNumber = false) (hbnumber : b.isNumber = false)
    (haconstant : a.linear constantMark = 0) (hbconstant : b.linear constantMark = 0) :
    ∃ powers, IsPowerPart root (a.linear + b.linear) powers ∧
      combinePowers mode (fuel + 3) (.exponential 1 (.number root) a)
          (.exponential 1 (.number root) b) =
        .ok (collapse (.product 1 1 (keyed powers))) := by
  obtain ⟨sum, hadd, hsum, hlinear⟩ := exists_addExponents (fun _ hvalue => hvalue) ha hb
  have hconstant : sum.linear constantMark = 0 := by
    rw [hlinear, Finsupp.add_apply, haconstant, hbconstant, add_zero]
  obtain ⟨powers, hpowers, hraise⟩ :=
    exists_raiseBase mode fuel hzero hone hreduced hsum hconstant
  refine ⟨powers, hlinear ▸ hpowers, ?_⟩
  rw [asExponent_of_not_isNumber hanumber, asExponent_of_not_isNumber hbnumber] at hadd
  rw [combinePowers.eq_def]
  simp only [Expr.exponent, hadd, bind, Except.bind, baseOf, hraise, coeff, one_mul, scale_one]
  rfl

/-! ## Products of roots and a power -/

/-- The factors of a product of roots and of a power. -/
def rootFactors (groups : List (Rat × Nat)) (powers : List Expr) : List Expr :=
  (rootsOfGroups groups).map radicalOf ++ powers

theorem isSeparate_rootsOfGroups (h : IsRootForm c groups) :
    IsSeparate (rootsOfGroups groups) := by
  constructor
  · rw [rootsOfGroups, List.pairwise_map]
    have hpowers : groups.Pairwise fun a b => a.1 ≠ b.1 := List.pairwise_map.mp h.powers
    refine (h.coprime.and hpowers).imp_of_mem fun {a b} ha hb hab => ⟨?_, ?_, ?_⟩
    · exact fun hminus => absurd hminus (IsWhole.ne_neg_one ⟨a.2, by
        have := h.two_le a ha
        omega, rfl⟩)
    · exact fun heq => absurd heq hab.2
    · intro q hq _ hqa hqb
      rw [num_groupRoot] at hqa hqb
      exact Nat.not_coprime_of_dvd_of_dvd hq.one_lt hqa hqb hab.1
  · refine List.forall_mem_map.mpr fun group hgroup q hq _ hdvd => ?_
    rw [num_groupRoot] at hdvd
    exact hq.ne_one (Nat.isUnit_iff.mp (h.squarefree group hgroup q hdvd))

theorem isSmall_rootsOfGroups (h : IsRootForm c groups) : IsSmall (rootsOfGroups groups) := by
  refine List.forall_mem_map.mpr fun group hgroup => ⟨.inl ⟨?_, ?_, h.power group hgroup⟩, ?_⟩
  · exact Rat.den_natCast _
  · exact (Nat.cast_ofNat (R := Rat) (n := 2)) ▸ Nat.cast_le.mpr (h.two_le group hgroup)
  · intro q hq hdvd
    rw [num_groupRoot] at hdvd
    exact h.smooth group hgroup q hq hdvd

theorem isProductPart_rootFactors (h : IsRootForm c groups)
    (hpowers : IsPowerPart root total powers) :
    IsProductPart .separate (keyed (rootFactors groups powers)) := by
  have hroots : IsProductPart .separate (keyed ((rootsOfGroups groups).map radicalOf)) := by
    refine ⟨h.distinct, List.forall_mem_map.mpr fun _ _ => rfl, ?_, ?_, ?_⟩
    · exact List.forall_mem_map.mpr (List.forall_mem_map.mpr fun _ _ => rfl)
    · exact List.forall_mem_map.mpr (List.forall_mem_map.mpr fun _ _ => rfl)
    · rw [keyed, radicals_map_radicalOf]
      exact ⟨isSeparate_rootsOfGroups h, isSmall_rootsOfGroups h⟩
  rw [rootFactors, keyed_append]
  cases hpowers with
  | nil => simpa [keyed] using hroots
  | power =>
      refine hroots.append rfl rfl (by simp [group]) rfl fun slot hslot hkey => ?_
      have hkeys := hroots.key slot hslot
      obtain ⟨root, hroot⟩ := eq_radicalOf (group_of_mem_keyed hslot) (hroots.coeff slot hslot)
      rw [hkeys, hroot, multiplicativeKey_radicalOf] at hkey
      simp [multiplicativeKey, isAtomSum, isSum, baseKey] at hkey

/-- The slots of a product of roots and of a power, in some order. -/
structure HasFactors (root c : Rat) (groups : List (Rat × Nat)) (total : Key →₀ Rat)
    (slots : Slots) : Prop where
  form : IsRootForm c groups
  factors : ∃ powers, IsPowerPart root total powers ∧
    slots.Perm (keyed (rootFactors groups powers))

/-- An outcome is the product of roots with the exponents of some powers, and of a power of
the base of which the exponent has some coefficients. -/
def RepresentsPower (root : Rat) (roots : List (Rat × Rat)) (total : Key →₀ Rat)
    (outcome : Except Fault Expr) : Prop :=
  ∃ c groups slots, outcome = .ok (collapse (.product c 1 slots)) ∧
    HasFactors root c groups total slots ∧ SameExponents (formRoots c groups) roots

theorem HasFactors.part (h : HasFactors root c groups total slots) :
    IsProductPart .separate slots := by
  obtain ⟨powers, hpowers, hperm⟩ := h.factors
  exact separate_perm (isProductPart_rootFactors h.form hpowers) hperm.symm

theorem HasFactors.perm (h : HasFactors root c groups total slots) (hperm : slots'.Perm slots) :
    HasFactors root c groups total slots' := by
  obtain ⟨powers, hpowers, hslots⟩ := h.factors
  exact ⟨h.form, powers, hpowers, hperm.trans hslots⟩

theorem HasFactors.withCoefficient (h : HasFactors root c groups total slots) (hc : 0 < c') :
    HasFactors root c' groups total slots :=
  ⟨h.form.withCoefficient hc, h.factors⟩

theorem HasFactors.representsPower (h : HasFactors root c groups total slots) :
    RepresentsPower root (formRoots c groups) total (.ok (collapse (.product c 1 slots))) :=
  ⟨c, groups, slots, rfl, h, fun _ _ => rfl⟩

theorem hasFactors_roots (root : Rat) (h : IsRootForm c groups) :
    HasFactors root c groups 0 (keyed ((rootsOfGroups groups).map radicalOf)) :=
  ⟨h, [], .nil, by rw [rootFactors, List.append_nil]⟩

theorem hasFactors_power (h : IsPowerPart root total powers) :
    HasFactors root 1 [] total (keyed powers) :=
  ⟨isRootForm_nil one_pos, powers, h, .refl _⟩

theorem RepresentsPower.congr {outcome : Except Fault Expr}
    (h : RepresentsPower root roots total outcome) (hroots : SameExponents roots roots')
    (htotal : total = total') : RepresentsPower root roots' total' outcome := by
  obtain ⟨c, groups, slots, houtcome, hfactors, hsame⟩ := h
  exact ⟨c, groups, slots, houtcome, htotal ▸ hfactors, fun q _ => (hsame q).trans (hroots q)⟩

theorem Represents.representsPower (root : Rat) {outcome : Except Fault Expr}
    (h : Represents roots outcome) : RepresentsPower root roots 0 outcome := by
  obtain ⟨c, groups, rfl, hform, hsame⟩ := h
  exact ⟨c, groups, _, by rw [collapse_radicals hform], hasFactors_roots root hform, hsame⟩

theorem RepresentsPower.exists_ok {outcome : Except Fault Expr}
    (h : RepresentsPower root roots total outcome) :
    ∃ node, outcome = .ok node ∧ RepresentsPower root roots total (.ok node) := by
  obtain ⟨c, groups, slots, rfl, h⟩ := h
  exact ⟨_, rfl, c, groups, slots, rfl, h⟩

theorem RepresentsPower.bind {outcome : Except Fault Expr} {f : Expr → Except Fault Expr}
    (h : RepresentsPower root roots total outcome)
    (hf : ∀ node, RepresentsPower root roots total (.ok node) →
      RepresentsPower root roots' total' (f node)) :
    RepresentsPower root roots' total' (outcome >>= f) := by
  obtain ⟨c, groups, slots, rfl, h⟩ := h
  exact hf _ ⟨c, groups, slots, rfl, h⟩

theorem RepresentsPower.map_scale {outcome : Except Fault Expr}
    (h : RepresentsPower root roots total outcome) (hc : 0 < c) :
    RepresentsPower root ((c, 1) :: roots) total (outcome.map (scale c)) := by
  obtain ⟨c', groups, slots, rfl, hfactors, hsame⟩ := h
  have hpos : 0 < c' * c := mul_pos hfactors.form.coefficient hc
  refine ⟨c' * c, groups, slots, ?_, hfactors.withCoefficient hpos, fun q _ => ?_⟩
  · rw [Except.map, scale_collapse hc.ne' hfactors.form.coefficient.ne' hfactors.part]
  · rw [primeExponent_cons, ← hsame q, formRoots, formRoots, primeExponent_cons,
      primeExponent_cons, padicValRat.mul hfactors.form.coefficient.ne' hc.ne']
    push_cast
    ring

/-! ## One more radical -/

/-- Only radicals stand in the slots of radicals. -/
theorem group_of_multiplicativeKey (hfactor : node.isFactor = true)
    (h : node.multiplicativeKey = .cons (.rational c) constantMark) : node.group = .radical := by
  obtain ⟨hnumber, hgroup, hsum⟩ := isFactor_iff.mp hfactor
  cases node with
  | radical => rfl
  | exponential coeff base exponent =>
      cases base <;>
        simp [multiplicativeKey, isAtomSum, isSum, baseKey, signature, content, constantMark,
          Key.tuple] at h
  | number => cases hnumber
  | _ =>
      simp [multiplicativeKey, isAtomSum, isSum, baseKey, content, withPower, constantMark,
        Key.tuple] at h
      try split_ifs at h
      all_goals simp_all [Key.append]

theorem insertFactor_radical {rules : Discipline} (h : IsProductPart rules slots)
    (base power : Rat) :
    insertFactor mode (fuel + 1) (.product c 1 slots) (.radical 1 base power) =
      insertRadical mode fuel (.product c 1 slots) (.radical 1 base power) := by
  have hsum : (Expr.radical 1 base power).isExpandedSum = false := rfl
  have hradical : (Expr.radical 1 base power).group = .radical := rfl
  rw [insertFactor.eq_def]
  cases hfind : Slots.find? (Expr.radical 1 base power).multiplicativeKey slots with
  | none => simp [hsum, hradical, Expr.slots, hfind]
  | some old =>
      have hmem := Slots.mem_of_find? hfind
      have hold : old.group = .radical :=
        group_of_multiplicativeKey (h.factor _ hmem) (h.key _ hmem).symm
      simp [hsum, hradical, Expr.slots, hfind, hold]

theorem splitRadicals_keyed_powers (h : IsPowerPart root total powers) :
    splitRadicals (keyed powers) = ([], keyed powers) := by
  cases h <;> rfl

theorem HasFactors.splitRadicals (h : HasFactors root c groups total slots) :
    ∃ powers, IsPowerPart root total powers ∧ (Reduce.splitRadicals slots).2 = keyed powers ∧
      (Slots.radicals slots).Perm (rootsOfGroups groups) := by
  obtain ⟨powers, hpowers, hperm⟩ := h.factors
  have hroots := splitRadicals_keyed (rootsOfGroups groups)
  have hothers := splitRadicals_keyed_powers hpowers
  refine ⟨powers, hpowers, ?_, ?_⟩
  · have hfilter : (Reduce.splitRadicals slots).2.Perm (keyed powers) := by
      have hsplit := hperm.filter fun slot => slot.2.group != .radical
      rw [rootFactors, keyed_append, List.filter_append] at hsplit
      rw [Reduce.splitRadicals, Prod.mk.injEq] at hroots hothers
      rwa [hroots.2, hothers.2, List.nil_append] at hsplit
    cases hpowers with
    | nil => exact hfilter.eq_nil
    | power => exact List.perm_singleton.mp hfilter
  · have hradicals := radicals_perm hperm
    rw [rootFactors, keyed_append, Slots.radicals_append] at hradicals
    rwa [Slots.radicals, Slots.radicals, Slots.radicals, hroots, hothers,
      List.append_nil] at hradicals

theorem representsPower_insertRadical (mode : Mode) (fuel : Nat)
    (h : HasFactors root 1 groups total slots) {group : Rat × Nat} (h' : IsRootForm 1 [group]) :
    RepresentsPower root (formRoots 1 groups ++ formRoots 1 [group]) total
      (insertRadical mode (fuel + 1) (.product 1 1 slots) (rootProduct 1 [group])) := by
  obtain ⟨powers, hpowers, hothers, hradicals⟩ := h.splitRadicals
  have hadded : (Reduce.splitRadicals
      [((rootProduct 1 [group]).multiplicativeKey, rootProduct 1 [group])]).1 =
        rootsOfGroups [group] := rfl
  have hsmooth : ∀ root ∈ Slots.radicals slots ++ rootsOfGroups [group], IsSmooth root.1 :=
    List.forall_mem_append.mpr
      ⟨fun root hroot => h.form.isSmooth root (hradicals.mem_iff.mp hroot), h'.isSmooth⟩
  obtain ⟨c, groups', hcombine, hform, hroots⟩ := exists_combineRadicals_smooth mode hsmooth
  have hpart := isProductPart_rootFactors hform hpowers
  have hperm : (keyed powers ++ keyed ((rootsOfGroups groups').map radicalOf)).Perm
      (keyed (rootFactors groups' powers)) := by
    rw [rootFactors, keyed_append]
    exact List.perm_append_comm
  refine ⟨c, groups', keyed powers ++ keyed ((rootsOfGroups groups').map radicalOf), ?_,
    ⟨hform, powers, hpowers, hperm⟩, fun q _ => ?_⟩
  · have hplace : placeFactors (keyed powers) ((rootsOfGroups groups').map radicalOf) =
        (keyed powers ++ keyed ((rootsOfGroups groups').map radicalOf), []) :=
      placeFactors_of_distinct (hpart.distinct.perm hperm.symm)
    rw [Slots.radicals] at hcombine
    rw [insertRadical.eq_def]
    simp only [hadded, Expr.slots, hothers, hcombine, hplace, bind, Except.bind, Expr.withCoeff,
      Expr.withSlots, Expr.coeff, one_mul, List.nil_append]
    rfl
  · rw [hroots q, primeExponent_append, primeExponent_append]
    simp [formRoots, primeExponent, (hradicals.map _).sum_eq]

/-- A factor and one more factor, with another key. -/
theorem representsPower_pair (fuel : Nat) (hmode : mode.numeric = false)
    (h : HasFactors root 1 groups total (keyed [a, b])) :
    RepresentsPower root (formRoots 1 groups) total (multiplyContent mode (fuel + 2) a b) ∧
      RepresentsPower root (formRoots 1 groups) total (multiplyContent mode (fuel + 2) b a) := by
  have hswap : (keyed [b, a]).Perm (keyed [a, b]) := .swap _ _ _
  obtain ⟨slots, hperm, hone⟩ := exists_multiplyContent_pair fuel hmode h.part
  obtain ⟨slots', hperm', hother⟩ := exists_multiplyContent_pair fuel hmode (h.perm hswap).part
  have hcollapse : ∀ slots : Slots, slots.Perm (keyed [a, b]) →
      RepresentsPower root (formRoots 1 groups) total (.ok (.product 1 1 slots)) := by
    intro slots hslots
    have hproduct := (h.perm hslots).representsPower
    rwa [collapse_two_le (by rw [hslots.length_eq]; exact le_rfl)] at hproduct
  rw [hone, hother]
  exact ⟨hcollapse slots hperm, hcollapse slots' (hperm'.trans hswap)⟩

/-- A lone factor is a radical or a power. -/
theorem HasFactors.of_length_lt (h : HasFactors root 1 groups total slots) (hne : slots ≠ [])
    (hlt : slots.length < 2) :
    (∃ group, groups = [group] ∧ slots = keyed [rootProduct 1 [group]] ∧ total = 0) ∨
      ∃ exponent, groups = [] ∧ slots = keyed [.exponential 1 (.number root) exponent] ∧
        IsPowerPart root total [.exponential 1 (.number root) exponent] := by
  obtain ⟨powers, hpowers, hperm⟩ := h.factors
  have hlength : slots.length = groups.length + powers.length := by
    simpa [rootFactors, keyed, rootsOfGroups] using hperm.length_eq
  have hpos : slots.length ≠ 0 := fun hzero => hne (List.eq_nil_of_length_eq_zero hzero)
  cases hpowers with
  | nil =>
      obtain ⟨group, rfl⟩ := List.length_eq_one_iff.mp
        (show groups.length = 1 by simp only [List.length_nil] at hlength; omega)
      exact .inl ⟨group, rfl, List.perm_singleton.mp hperm, rfl⟩
  | @power exponent hexponent hnumber hconstant =>
      obtain rfl : groups = [] := List.eq_nil_of_length_eq_zero
        (by simp only [List.length_singleton] at hlength; omega)
      exact .inr ⟨exponent, rfl, List.perm_singleton.mp hperm, .power hexponent hnumber hconstant⟩

/-- A product and one more radical. -/
theorem representsPower_radical (hmode : mode.numeric = false)
    (h : HasFactors root 1 groups total slots) (hne : slots ≠ []) {group : Rat × Nat}
    (h' : IsRootForm 1 [group]) :
    RepresentsPower root (formRoots 1 groups ++ formRoots 1 [group]) total
        (multiplyContent mode (fuel + 5) (collapse (.product 1 1 slots)) (rootProduct 1 [group])) ∧
      RepresentsPower root (formRoots 1 groups ++ formRoots 1 [group]) total
        (multiplyContent mode (fuel + 5) (rootProduct 1 [group])
          (collapse (.product 1 1 slots))) := by
  by_cases htwo : 2 ≤ slots.length
  · have hstep := multiplyContent_insert mode (fuel + 4) 1 slots
      (show (rootProduct 1 [group]).isFactor = true from rfl)
    have hinsert := representsPower_insertRadical mode (fuel + 2) h h'
    rw [collapse_two_le htwo, hstep.1, hstep.2, rootProduct_singleton,
      insertFactor_radical h.part]
    exact ⟨hinsert, hinsert⟩
  rcases h.of_length_lt hne (not_le.mp htwo) with
    ⟨first, rfl, rfl, rfl⟩ | ⟨exponent, rfl, rfl, hpower⟩
  · rw [collapse_keyed]
    refine ⟨(represents_multiplyContent_radicals hmode h.form h').representsPower root, ?_⟩
    refine ((represents_multiplyContent_radicals hmode h' h.form).representsPower root).congr
      (fun q _ => ?_) rfl
    simp [add_comm]
  · have hfactors : HasFactors root 1 [group] total
        (keyed [rootProduct 1 [group], .exponential 1 (.number root) exponent]) :=
      ⟨h', _, hpower, .refl _⟩
    obtain ⟨hone, hother⟩ := representsPower_pair (fuel + 3) hmode hfactors
    rw [collapse_keyed]
    refine ⟨hother.congr (fun q _ => ?_) rfl, hone.congr (fun q _ => ?_) rfl⟩ <;>
      simp [formRoots, rootsOfGroups]

/-! ## One more power -/

theorem multiplicativeKey_power (base : Rat) (exponent : Expr) :
    (Expr.exponential 1 (.number base) exponent).multiplicativeKey =
      .cons (.group .exponential) (.cons (.rational base) constantMark) := rfl

theorem key_ne_of_mem_radicals {slot : Key × Expr}
    (h : slot ∈ keyed ((rootsOfGroups groups).map radicalOf)) (base : Rat) (exponent : Expr) :
    slot.1 ≠ (Expr.exponential 1 (.number base) exponent).multiplicativeKey := by
  obtain ⟨factor, hfactor, rfl⟩ := List.mem_map.mp h
  obtain ⟨root, -, rfl⟩ := List.mem_map.mp hfactor
  simp [multiplicativeKey_radicalOf, multiplicativeKey_power]

/-- Roots and a power of the base. -/
theorem representsPower_combineFactors_part (fuel : Nat) (hmode : mode.numeric = false)
    (h : IsRootForm c groups) (hslots : slots.Perm (keyed ((rootsOfGroups groups).map radicalOf)))
    (hpowers : IsPowerPart root total powers) :
    RepresentsPower root (formRoots c groups) total (combineFactors mode (fuel + 4)
      (collapse (.product c 1 slots)) (collapse (.product 1 1 (keyed powers)))) := by
  have hfactors : HasFactors root c groups total (slots ++ keyed powers) :=
    ⟨h, powers, hpowers, by
      rw [rootFactors, keyed_append]
      exact hslots.append_right _⟩
  cases hpowers with
  | nil =>
      rw [show collapse (.product 1 1 (keyed [])) = .number 1 from rfl,
        (combineFactors_number mode (fuel + 3) 1 _).1, scale_one]
      rw [keyed, List.map_nil, List.append_nil] at hfactors
      exact hfactors.representsPower
  | power =>
      obtain ⟨slots', hperm, hok⟩ := exists_combineFactors_factor fuel hmode h.coefficient.ne'
        hfactors.part (fun hgroup => by cases hgroup)
      rw [collapse_keyed, hok]
      exact (hfactors.perm hperm).representsPower

theorem multiplyContent_powers (base : Rat) (a b : Expr) :
    multiplyContent mode (fuel + 1) (.exponential 1 (.number base) a)
        (.exponential 1 (.number base) b) =
      combinePowers mode fuel (.exponential 1 (.number base) a)
        (.exponential 1 (.number base) b) := by
  rw [multiplyContent.eq_def]
  simp only [isExpandedSum, isSum, Bool.false_and, Bool.or_self, Bool.false_eq_true, if_false,
    multiplicativeKey_power, if_true]

/-- A power joins a product in which a power of the base stands. -/
theorem insertFactor_power {old : Expr} {base : Rat}
    (h : Slots.find? (Expr.exponential 1 (.number base) exponent).multiplicativeKey slots =
      some old) :
    insertFactor mode (fuel + 1) (.product c 1 slots) (.exponential 1 (.number base) exponent) =
      combinePowers mode fuel old (.exponential 1 (.number base) exponent) >>=
        combineFactors mode fuel (collapse (.product c 1 (Slots.erase
          (Expr.exponential 1 (.number base) exponent).multiplicativeKey slots))) := by
  rw [insertFactor.eq_def]
  simp only [Expr.slots, h]
  rfl

/-- The roots beside a power. -/
theorem erase_power_perm (exponent : Expr) {old : Expr}
    (hperm : slots.Perm (keyed (rootFactors groups [.exponential 1 (.number root) old])))
    (hdistinct : Slots.Distinct slots) :
    Slots.find? (Expr.exponential 1 (.number root) exponent).multiplicativeKey slots =
        some (.exponential 1 (.number root) old) ∧
      (Slots.erase (Expr.exponential 1 (.number root) exponent).multiplicativeKey slots).Perm
        (keyed ((rootsOfGroups groups).map radicalOf)) := by
  rw [rootFactors, keyed_append] at hperm
  constructor
  · refine Slots.find?_of_mem hdistinct (hperm.mem_iff.mpr ?_)
    exact List.mem_append_right _ List.mem_cons_self
  · have herase := hperm.filter fun slot =>
      slot.1 != (Expr.exponential 1 (.number root) exponent).multiplicativeKey
    rw [List.filter_append] at herase
    have hroots : (keyed ((rootsOfGroups groups).map radicalOf)).filter (fun slot =>
        slot.1 != (Expr.exponential 1 (.number root) exponent).multiplicativeKey) =
          keyed ((rootsOfGroups groups).map radicalOf) :=
      List.filter_eq_self.mpr fun slot hslot =>
        bne_iff_ne.mpr (key_ne_of_mem_radicals hslot root exponent)
    have hpower : (keyed [Expr.exponential 1 (.number root) old]).filter (fun slot =>
        slot.1 != (Expr.exponential 1 (.number root) exponent).multiplicativeKey) = [] := by
      simp [keyed, multiplicativeKey_power]
    rwa [hroots, hpower, List.append_nil] at herase

/-- A product and one more power of the base. -/
theorem representsPower_power (fuel : Nat) (hmode : mode.numeric = false) (hzero : root ≠ 0)
    (hone : root ≠ 1) (hreduced : IsReduced root) (h : HasFactors root 1 groups total slots)
    (hne : slots ≠ [])
    (hpower : IsPowerPart root total' [.exponential 1 (.number root) exponent]) :
    RepresentsPower root (formRoots 1 groups) (total + total')
        (multiplyContent mode (fuel + 6) (collapse (.product 1 1 slots))
          (.exponential 1 (.number root) exponent)) ∧
      RepresentsPower root (formRoots 1 groups) (total + total')
        (multiplyContent mode (fuel + 6) (.exponential 1 (.number root) exponent)
          (collapse (.product 1 1 slots))) := by
  cases hpower with
  | power hexponent hnumber hconstant =>
  have hpower : IsPowerPart root exponent.linear [.exponential 1 (.number root) exponent] :=
    .power hexponent hnumber hconstant
  by_cases htwo : 2 ≤ slots.length
  · have hstep := multiplyContent_insert mode (fuel + 5) 1 slots
      (show (Expr.exponential 1 (.number root) exponent).isFactor = true from rfl)
    rw [collapse_two_le htwo, hstep.1, hstep.2, and_self]
    obtain ⟨powers, hpowers, hperm⟩ := h.factors
    cases hpowers with
    | nil =>
        have hfactors : HasFactors root 1 groups exponent.linear
            (slots ++ keyed [.exponential 1 (.number root) exponent]) := by
          refine ⟨h.form, _, hpower, ?_⟩
          rw [rootFactors, List.append_nil] at hperm
          rw [rootFactors, keyed_append]
          exact hperm.append_right _
        obtain ⟨slots', hslots', hok⟩ := exists_insertFactor (fuel + 3) hmode hfactors.part htwo
          (fun hgroup => by cases hgroup)
        have hproduct := (hfactors.perm hslots').representsPower
        rw [collapse_two_le (by rw [hslots'.length_eq, List.length_append]; omega)] at hproduct
        rwa [hok, zero_add]
    | @power old hold holdnumber holdconstant =>
        obtain ⟨merged, hmerged, hcombine⟩ := exists_combinePowers mode (fuel + 1) hzero
          hone hreduced hold hexponent holdnumber hnumber holdconstant hconstant
        obtain ⟨hfind, herase⟩ := erase_power_perm exponent hperm h.part.distinct
        rw [insertFactor_power hfind, hcombine]
        exact representsPower_combineFactors_part fuel hmode h.form herase hmerged
  rcases h.of_length_lt hne (not_le.mp htwo) with
    ⟨first, rfl, rfl, rfl⟩ | ⟨other, rfl, rfl, hother⟩
  · have hfactors : HasFactors root 1 [first] exponent.linear
        (keyed [rootProduct 1 [first], .exponential 1 (.number root) exponent]) :=
      ⟨h.form, _, hpower, .refl _⟩
    rw [collapse_keyed, zero_add]
    exact representsPower_pair _ hmode hfactors
  · cases hother with
    | power hold holdnumber holdconstant =>
        obtain ⟨merged, hmerged, hcombine⟩ := exists_combinePowers mode (fuel + 2) hzero
          hone hreduced hold hexponent holdnumber hnumber holdconstant hconstant
        obtain ⟨merged', hmerged', hcombine'⟩ := exists_combinePowers mode (fuel + 2)
          hzero hone hreduced hexponent hold hnumber holdnumber hconstant holdconstant
        rw [collapse_keyed, multiplyContent_powers, multiplyContent_powers, hcombine, hcombine']
        exact ⟨(hasFactors_power hmerged).representsPower,
          (hasFactors_power hmerged').representsPower.congr (fun _ _ => rfl) (add_comm _ _)⟩

/-! ## Products -/

theorem HasFactors.eq_keyed (h : HasFactors root c groups total slots) (hne : slots ≠ [])
    (hlt : slots.length < 2) : ∃ factor, slots = keyed [factor] := by
  match slots, hne, hlt with
  | [slot], _, _ =>
      have hkey : slot.1 = slot.2.multiplicativeKey := h.part.key slot List.mem_cons_self
      exact ⟨slot.2, congrArg (fun slot => [slot]) (Prod.ext hkey rfl)⟩

/-- A product and one more factor. -/
theorem representsPower_factor (hmode : mode.numeric = false) (hzero : root ≠ 0) (hone : root ≠ 1)
    (hreduced : IsReduced root) (h : HasFactors root 1 groups total slots) (hne : slots ≠ [])
    (h' : HasFactors root 1 groups' total' (keyed [node])) :
    RepresentsPower root (formRoots 1 groups ++ formRoots 1 groups') (total + total')
        (multiplyContent mode (fuel + 6) (collapse (.product 1 1 slots)) node) ∧
      RepresentsPower root (formRoots 1 groups ++ formRoots 1 groups') (total + total')
        (multiplyContent mode (fuel + 6) node (collapse (.product 1 1 slots))) := by
  rcases h'.of_length_lt (List.cons_ne_nil _ _) Nat.one_lt_two with
    ⟨group, rfl, hslots, rfl⟩ | ⟨exponent, rfl, hslots, hpower⟩
  · obtain rfl : node = rootProduct 1 [group] := congrArg Prod.snd (List.head_eq_of_cons_eq hslots)
    rw [add_zero]
    exact representsPower_radical hmode h hne h'.form
  · obtain rfl : node = .exponential 1 (.number root) exponent :=
      congrArg Prod.snd (List.head_eq_of_cons_eq hslots)
    obtain ⟨hfirst, hsecond⟩ :=
      representsPower_power fuel hmode hzero hone hreduced h hne hpower
    refine ⟨hfirst.congr (fun q _ => ?_) rfl, hsecond.congr (fun q _ => ?_) rfl⟩ <;>
      simp [formRoots, rootsOfGroups]

theorem HasFactors.of_nil (h : HasFactors root c groups total []) : groups = [] ∧ total = 0 := by
  obtain ⟨powers, hpowers, hperm⟩ := h.factors
  have hnil := hperm.symm.eq_nil
  rw [rootFactors, keyed_append, List.append_eq_nil_iff] at hnil
  cases hpowers with
  | nil => exact ⟨by simpa [keyed, rootsOfGroups] using hnil.1, rfl⟩
  | power => exact absurd hnil.2 (List.cons_ne_nil _ _)

/-- The product of two products, from those of their contents. -/
theorem representsPower_combineFactors_of_content (mode : Mode) (fuel : Nat)
    (h : HasFactors root c groups total slots)
    (h' : HasFactors root c' groups' total' slots')
    (hcontent : slots ≠ [] → slots' ≠ [] →
      RepresentsPower root (formRoots 1 groups ++ formRoots 1 groups') (total + total')
          (multiplyContent mode fuel (collapse (.product 1 1 slots))
            (collapse (.product 1 1 slots'))) ∧
        RepresentsPower root (formRoots 1 groups ++ formRoots 1 groups') (total + total')
          (multiplyContent mode fuel (collapse (.product 1 1 slots'))
            (collapse (.product 1 1 slots)))) :
    RepresentsPower root (formRoots c groups ++ formRoots c' groups') (total + total')
      (combineFactors mode (fuel + 1) (collapse (.product c 1 slots))
        (collapse (.product c' 1 slots'))) := by
  have hcpos := h.form.coefficient
  have hcpos' := h'.form.coefficient
  by_cases hne : slots = []
  · subst hne
    obtain ⟨rfl, rfl⟩ := h.of_nil
    rw [collapse, (combineFactors_number mode fuel c _).2]
    refine (h'.representsPower.map_scale hcpos).congr (fun q _ => ?_) (zero_add _).symm
    simp [formRoots, rootsOfGroups]
  by_cases hne' : slots' = []
  · subst hne'
    obtain ⟨rfl, rfl⟩ := h'.of_nil
    rw [show collapse (.product c' 1 []) = .number c' from rfl,
      (combineFactors_number mode fuel c' _).1]
    refine (h.representsPower.map_scale hcpos').congr (fun q _ => ?_) (add_zero _).symm
    simp [formRoots, rootsOfGroups]
    ring
  obtain ⟨hnumber, hcoeff, hwith⟩ := collapse_parts hcpos.ne' h.part hne
  obtain ⟨hnumber', hcoeff', hwith'⟩ := collapse_parts hcpos'.ne' h'.part hne'
  obtain ⟨hone, hother⟩ := hcontent hne hne'
  have hsame : SameExponents ((c * c', 1) :: (formRoots 1 groups ++ formRoots 1 groups'))
      (formRoots c groups ++ formRoots c' groups') := fun q _ => by
    simp only [formRoots, primeExponent_cons, primeExponent_append, padicValRat.one,
      padicValRat.mul hcpos.ne' hcpos'.ne', List.cons_append]
    push_cast
    ring
  obtain ⟨x, y, ⟨rfl, rfl⟩ | ⟨rfl, rfl⟩, hstep⟩ :=
    combineFactors_eq_map mode hnumber hnumber'
  · rw [hstep, hwith, hwith', hcoeff, hcoeff']
    exact (hone.map_scale (mul_pos hcpos hcpos')).congr hsame rfl
  · rw [hstep, hwith, hwith', hcoeff, hcoeff']
    exact (hother.map_scale (mul_pos hcpos hcpos')).congr hsame rfl

/-- The first factor of a product, and the others. -/
theorem HasFactors.cons {slot : Key × Expr} (h : HasFactors root 1 groups total (slot :: slots)) :
    ∃ first rest total' total'', HasFactors root 1 first total' [slot] ∧
      HasFactors root 1 rest total'' slots ∧ total' + total'' = total ∧
      SameExponents (formRoots 1 first ++ formRoots 1 rest) (formRoots 1 groups) := by
  obtain ⟨powers, hpowers, hperm⟩ := h.factors
  rw [rootFactors, keyed_append] at hperm
  rcases List.mem_append.mp (hperm.mem_iff.mp List.mem_cons_self) with hroot | hpower
  · -- a radical
    rw [keyed_radicals] at hperm hroot
    obtain ⟨group, hgroup, rfl⟩ := List.mem_map.mp hroot
    obtain ⟨before, after, rfl⟩ := List.append_of_mem hgroup
    have hrest : slots.Perm (keyed (rootFactors (before ++ after) powers)) := by
      rw [rootFactors, keyed_append, keyed_radicals]
      rw [List.map_append, List.map_cons, List.append_assoc, List.cons_append] at hperm
      rw [List.map_append, List.append_assoc]
      exact (hperm.trans List.perm_middle).cons_inv
    have hsub : (before ++ after).Sublist (before ++ group :: after) :=
      (List.Sublist.refl before).append (List.sublist_cons_self group after)
    refine ⟨[group], before ++ after, 0, total,
      ⟨h.form.sublist (List.singleton_sublist.mpr hgroup), [], .nil, .refl _⟩,
      ⟨h.form.sublist hsub, powers, hpowers, hrest⟩, zero_add _, fun q _ => ?_⟩
    simp [formRoots, rootsOfGroups]
    ring
  · -- the power
    cases hpowers with
    | nil => cases hpower
    | power hexponent hnumber hconstant =>
        obtain rfl := List.mem_singleton.mp hpower
        have hrest : slots.Perm (keyed (rootFactors groups [])) := by
          rw [rootFactors, List.append_nil]
          simpa [keyed] using (hperm.trans List.perm_append_comm).cons_inv
        refine ⟨[], groups, _, 0, hasFactors_power (.power hexponent hnumber hconstant),
          ⟨h.form, [], .nil, hrest⟩, add_zero _, fun q _ => ?_⟩
        simp [formRoots, rootsOfGroups]

/-- A product and the factors of another one, one after the other. -/
theorem RepresentsPower.foldlM (fuel : Nat) (hmode : mode.numeric = false) (hzero : root ≠ 0)
    (hone : root ≠ 1) (hreduced : IsReduced root) (h : RepresentsPower root roots total (.ok node))
    (hslots : HasFactors root 1 groups total' slots) :
    RepresentsPower root (roots ++ formRoots 1 groups) (total + total')
      ((Slots.children slots).foldlM
        (fun result factor => combineFactors mode (fuel + 7) result factor) node) := by
  induction slots generalizing roots total node groups total' with
  | nil =>
      obtain ⟨rfl, rfl⟩ := hslots.of_nil
      refine h.congr (fun q _ => ?_) (add_zero _).symm
      simp [formRoots, rootsOfGroups]
  | cons slot rest ih =>
      obtain ⟨first, others, total₁, total₂, hfirst, hothers, rfl, hsame⟩ := hslots.cons
      obtain ⟨factor, hfactor⟩ := hfirst.eq_keyed (List.cons_ne_nil _ _) Nat.one_lt_two
      rw [hfactor] at hfirst
      obtain rfl : slot = (factor.multiplicativeKey, factor) := List.head_eq_of_cons_eq hfactor
      have hstep : RepresentsPower root (roots ++ formRoots 1 first) (total + total₁)
          (combineFactors mode (fuel + 7) node factor) := by
        obtain ⟨c, groups', slots', hnode, hfactors, hroots⟩ := h
        obtain rfl := Except.ok.inj hnode
        have hcombine := representsPower_combineFactors_of_content mode (fuel + 6) hfactors
          hfirst fun hne _ => by
            rw [collapse_keyed]
            exact representsPower_factor hmode hzero hone hreduced
              (hfactors.withCoefficient one_pos) hne hfirst
        rw [collapse_keyed] at hcombine
        exact hcombine.congr (hroots.append fun _ _ => rfl) rfl
      refine hstep.bind fun node' h' => (ih h' hothers).congr (fun q _ => ?_) (add_assoc _ _ _)
      rw [List.append_assoc]
      exact (SameExponents.append (fun _ _ => rfl) hsame) q

theorem representsPower_multiplyContent (fuel : Nat) (hmode : mode.numeric = false)
    (hzero : root ≠ 0) (hone : root ≠ 1) (hreduced : IsReduced root)
    (h : HasFactors root 1 groups total slots) (hne : slots ≠ [])
    (h' : HasFactors root 1 groups' total' slots') (hne' : slots' ≠ []) :
    RepresentsPower root (formRoots 1 groups ++ formRoots 1 groups') (total + total')
      (multiplyContent mode (fuel + 8) (collapse (.product 1 1 slots))
        (collapse (.product 1 1 slots'))) := by
  by_cases htwo' : slots'.length < 2
  · obtain ⟨factor, rfl⟩ := h'.eq_keyed hne' htwo'
    rw [collapse_keyed]
    exact (representsPower_factor hmode hzero hone hreduced h hne h').1
  by_cases htwo : slots.length < 2
  · obtain ⟨factor, rfl⟩ := h.eq_keyed hne htwo
    rw [collapse_keyed]
    refine (representsPower_factor hmode hzero hone hreduced h' hne' h).2.congr (fun q _ => ?_)
      (add_comm _ _)
    simp [add_comm]
  · have hfold := h.representsPower.foldlM fuel hmode hzero hone hreduced h'
    rw [collapse_two_le (not_lt.mp htwo)] at hfold ⊢
    rw [collapse_two_le (not_lt.mp htwo'), multiplyContent.eq_def]
    exact hfold

/-- Multiplication adds the exponents of the primes and the coefficients of the exponents. -/
theorem RepresentsPower.combineFactors (fuel : Nat) (hmode : mode.numeric = false)
    (hzero : root ≠ 0) (hone : root ≠ 1) (hreduced : IsReduced root)
    (h : RepresentsPower root roots total (.ok a))
    (h' : RepresentsPower root roots' total' (.ok b)) :
    RepresentsPower root (roots ++ roots') (total + total')
      (Reduce.combineFactors mode (fuel + 9) a b) := by
  obtain ⟨c, groups, slots, hnode, hfactors, hroots⟩ := h
  obtain ⟨c', groups', slots', hnode', hfactors', hroots'⟩ := h'
  obtain rfl := Except.ok.inj hnode
  obtain rfl := Except.ok.inj hnode'
  refine (representsPower_combineFactors_of_content mode _ hfactors hfactors' fun hne hne' =>
    ⟨?_, ?_⟩).congr (hroots.append hroots') rfl
  · exact representsPower_multiplyContent fuel hmode hzero hone hreduced
      (hfactors.withCoefficient one_pos) hne (hfactors'.withCoefficient one_pos) hne'
  · refine (representsPower_multiplyContent fuel hmode hzero hone hreduced
      (hfactors'.withCoefficient one_pos) hne' (hfactors.withCoefficient one_pos) hne).congr
        (fun q _ => ?_) (add_comm _ _)
    simp [add_comm]

/-! ## Powers of a constant -/

theorem isSmoothRatio_of_pow {degree : Nat} (hdegree : degree ≠ 0) (hpos : 0 < root)
    (h : IsSmoothRatio (root ^ degree)) : IsSmoothRatio root := by
  obtain ⟨-, hnum, hden⟩ := h
  rw [Rat.num_pow, Int.natAbs_pow] at hnum
  rw [Rat.den_pow] at hden
  exact ⟨hpos, hnum.of_dvd (dvd_pow_self _ hdegree), hden.of_dvd (dvd_pow_self _ hdegree)⟩

/-- The exponents that a power of a constant adds to those of its base, without the constant
term. -/
noncomputable def symbolicPart (degree : Nat) (exponent : Expr) : Key →₀ Rat :=
  (degree : Rat) • (exponent.linear - Finsupp.single constantMark (exponent.linear constantMark))

theorem symbolicPart_constantMark (degree : Nat) (exponent : Expr) :
    symbolicPart degree exponent constantMark = 0 := by
  simp [symbolicPart]

/-- A constant to an exponent that is no constant. -/
theorem representsPower_exponential (fuel : Nat) (hmode : mode.numeric = false) {base : Rat}
    {degree : Nat} (hbase : base ≠ 0) (hbase' : base ≠ 1) (hdegree : degree ≠ 0)
    (hpow : root ^ degree = base) (hroot : IsSmoothRatio root) (hone : root ≠ 1)
    (hreduced : IsReduced root)
    (hreduce : ∀ exponent, reduceBase base exponent = (root, scale degree exponent))
    (h : Canonical .proper exponent) (hnumber : exponent.isNumber = false) :
    RepresentsPower root [(base, exponent.linear constantMark)] (symbolicPart degree exponent)
      (Reduce.exponential mode (fuel + 10) (.number base) exponent) := by
  have hdegree' : (degree : Rat) ≠ 0 := Nat.cast_ne_zero.mpr hdegree
  have hzero : root ≠ 0 := hroot.1.ne'
  have hscaled : Canonical .proper (scale degree exponent) :=
    canonical_scale (fun _ hvalue => hvalue) hdegree' h
  have hscalednumber : (scale degree exponent).isNumber = false := by
    rw [isNumber_scale hdegree', hnumber]
  have hterm : constantTerm (scale degree exponent) =
      degree * exponent.linear constantMark := by
    rw [constantTerm_eq_linear hscaled hscalednumber, linear_scale]
    rfl
  have hsame : SameExponents [(root, degree * exponent.linear constantMark)]
      [(base, exponent.linear constantMark)] := fun q _ => by
    simp only [primeExponent_cons, primeExponent_nil, ← hpow, padicValRat.pow]
    push_cast
    ring
  rw [exponential.eq_def]
  simp only [hbase, hbase', or_self, if_false, hreduce, hterm]
  split_ifs with hconstant
  · have hlinear : exponent.linear constantMark = 0 := by simpa [hdegree] using hconstant
    have htotal : (scale degree exponent).linear = symbolicPart degree exponent := by
      rw [linear_scale, symbolicPart, hlinear, Finsupp.single_zero, sub_zero]
    have hpart : IsPowerPart root (symbolicPart degree exponent)
        [.exponential 1 (.number root) (scale degree exponent)] := by
      rw [← htotal]
      exact .power hscaled hscalednumber (htotal ▸ symbolicPart_constantMark _ _)
    have hpower := (hasFactors_power hpart).representsPower
    rw [collapse_keyed] at hpower
    refine hpower.congr (fun q _ => ?_) rfl
    simp [formRoots, rootsOfGroups, hlinear]
  · obtain ⟨rest, hplus, hrest, hlinear⟩ := Arithmetic.proper_add hscaled
      (.number (-(degree * exponent.linear constantMark)))
    have htotal : rest.linear = symbolicPart degree exponent := by
      rw [hlinear, linear_scale, linear_number, symbolicPart, smul_sub, Finsupp.smul_single,
        smul_eq_mul, Finsupp.single_neg, sub_eq_add_neg]
    obtain ⟨powers, hpowers, hraise⟩ := exists_raiseBase mode (fuel + 7) hzero hone
      hreduced hrest (htotal ▸ symbolicPart_constantMark _ _)
    rw [Arithmetic.add] at hplus
    simp only [hplus, hraise, bind, Except.bind]
    have hnumber : Represents [(root, degree * exponent.linear constantMark)]
        (numberPower mode (fuel + 9) root (degree * exponent.linear constantMark)) :=
      represents_numberPower hmode hroot _
    refine (hnumber.representsPower root).bind fun constant hconstant => ?_
    refine (hconstant.combineFactors fuel hmode hzero hone hreduced
      (hasFactors_power hpowers).representsPower).congr (fun q _ => ?_) ?_
    · rw [← hsame q]
      simp [formRoots, rootsOfGroups]
    · rw [zero_add, htotal]

/-! ## Equality -/

theorem IsPowerPart.signatures {powers' : List Expr} (h : IsPowerPart root total powers)
    (h' : IsPowerPart root total' powers') (htotal : total = total') :
    powers.map signature = powers'.map signature := by
  have hproper : ∀ value, Discipline.proper.constant value → value ≠ 0 := fun _ hvalue => hvalue
  have hne : ∀ {exponent : Expr}, Canonical .proper exponent → exponent.isNumber = false →
      exponent.linear ≠ 0 := by
    intro exponent hexponent hnumber hlinear
    have hnonzero : exponent.isZero = false := by
      cases exponent <;> first | rfl | cases hnumber
    obtain ⟨content, hcontent⟩ := hexponent.exists_linear_ne_zero hproper hnonzero
    rw [hlinear] at hcontent
    exact hcontent rfl
  cases h with
  | nil =>
      cases h' with
      | nil => rfl
      | power hexponent hnumber => exact absurd htotal.symm (hne hexponent hnumber)
  | power hexponent hnumber =>
      cases h' with
      | nil => exact absurd htotal (hne hexponent hnumber)
      | power hexponent' =>
          rw [List.map_singleton, List.map_singleton]
          exact congrArg (fun key => [key]) (signature_exponential rfl
            (hexponent.signature_eq_of_linear hproper hexponent' htotal))

theorem signatures_keyed (factors : List Expr) :
    (keyed factors).signatures = factors.map signature := by
  simp [keyed, Slots.signatures]

/-- The exponents of the primes and the coefficients of the exponent determine a product. -/
theorem RepresentsPower.equals (h : RepresentsPower root roots total (.ok a))
    (h' : RepresentsPower root roots total (.ok b)) : a.equals b = true := by
  obtain ⟨c, groups, slots, ha, hfactors, hroots⟩ := h
  obtain ⟨c', groups', slots', hb, hfactors', hroots'⟩ := h'
  obtain rfl := Except.ok.inj ha
  obtain rfl := Except.ok.inj hb
  obtain ⟨rfl, hgroups⟩ := hfactors.form.unique hfactors'.form
    fun q _ => (hroots q).trans (hroots' q).symm
  obtain ⟨powers, hpowers, hperm⟩ := hfactors.factors
  obtain ⟨powers', hpowers', hperm'⟩ := hfactors'.factors
  have hsame : ((rootFactors groups powers).map signature).Perm
      ((rootFactors groups' powers').map signature) := by
    rw [rootFactors, rootFactors, List.map_append, List.map_append,
      hpowers.signatures hpowers' rfl]
    exact (((hgroups.map _).map radicalOf).map signature).append_right _
  rw [Expr.equals, beq_iff_eq]
  refine signature_collapse_of_signatures hfactors.form.coefficient.ne' hfactors.part
    hfactors'.part ?_
  have hslots := hperm.map fun slot => slot.2.signature
  have hslots' := hperm'.map fun slot => slot.2.signature
  change (Slots.signatures slots).Perm (keyed (rootFactors groups powers)).signatures at hslots
  change (Slots.signatures slots').Perm
    (keyed (rootFactors groups' powers')).signatures at hslots'
  rw [signatures_keyed] at hslots hslots'
  exact (hslots.trans hsame).trans hslots'.symm

end Reduce

end ExactAlgebra
