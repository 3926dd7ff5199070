import ExactAlgebra.Proofs.Canonical.Arithmetic
import ExactAlgebra.Proofs.Canonical.Conserved
import ExactAlgebra.Proofs.Canonical.Step

/-!
# Products of roots

Products and powers of positive rationals without large primes are a coefficient times
radicals with different exponents between zero and one, the bases of which are squarefree
and coprime.  Multiplication adds the exponents of each prime.
-/

namespace ExactAlgebra.Reduce

open ExactAlgebra.Expr

variable {mode : Mode} {fuel : Nat} {c c' : Rat} {groups groups' : List (Rat × Nat)}
  {roots : List (Rat × Rat)} {node : Expr}

/-! ## Coefficients and groups -/

/-- A coefficient and the groups of primes that go by one exponent each. -/
structure IsRootForm (c : Rat) (groups : List (Rat × Nat)) : Prop where
  coefficient : 0 < c
  power : ∀ group ∈ groups, 0 < group.1 ∧ group.1 < 1
  two_le : ∀ group ∈ groups, 2 ≤ group.2
  squarefree : ∀ group ∈ groups, Squarefree group.2
  smooth : ∀ group ∈ groups, Factor.Smooth Factor.defaultLimit group.2
  powers : (groups.map Prod.fst).Nodup
  coprime : groups.Pairwise fun a b => a.2.Coprime b.2

/-- A coefficient times the radicals of some groups. -/
def rootProduct (c : Rat) (groups : List (Rat × Nat)) : Expr :=
  productOf c ((rootsOfGroups groups).map radicalOf)

/-- The powers of which a coefficient and groups are the product. -/
def formRoots (c : Rat) (groups : List (Rat × Nat)) : List (Rat × Rat) :=
  (c, 1) :: rootsOfGroups groups

/-- Powers in which each prime has one exponent. -/
def SameExponents (roots roots' : List (Rat × Rat)) : Prop :=
  ∀ (q : Nat) [Fact q.Prime], primeExponent q roots = primeExponent q roots'

/-- An outcome is a product of roots with the exponents of some powers. -/
def Represents (roots : List (Rat × Rat)) (outcome : Except Fault Expr) : Prop :=
  ∃ c groups, outcome = .ok (rootProduct c groups) ∧ IsRootForm c groups ∧
    SameExponents (formRoots c groups) roots

theorem SameExponents.append {roots₁ roots₂ roots₃ roots₄ : List (Rat × Rat)}
    (h : SameExponents roots₁ roots₂) (h' : SameExponents roots₃ roots₄) :
    SameExponents (roots₁ ++ roots₃) (roots₂ ++ roots₄) := fun q _ => by
  rw [primeExponent_append, primeExponent_append, h q, h' q]

theorem Represents.congr {roots' : List (Rat × Rat)} {outcome : Except Fault Expr}
    (h : Represents roots outcome) (hsame : SameExponents roots roots') :
    Represents roots' outcome := by
  obtain ⟨c, groups, houtcome, hform, hroots⟩ := h
  exact ⟨c, groups, houtcome, hform, fun q _ => (hroots q).trans (hsame q)⟩

theorem represents_rootProduct (h : IsRootForm c groups) :
    Represents (formRoots c groups) (.ok (rootProduct c groups)) :=
  ⟨c, groups, rfl, h, fun _ _ => rfl⟩

theorem isRootForm_nil (hc : 0 < c) : IsRootForm c [] := by
  constructor <;> simp [hc]

theorem IsRootForm.withCoefficient (h : IsRootForm c groups) (hc : 0 < c') :
    IsRootForm c' groups := { h with coefficient := hc }

theorem IsRootForm.sublist (h : IsRootForm c groups) (hsub : groups'.Sublist groups) :
    IsRootForm c groups' where
  coefficient := h.coefficient
  power := fun group hgroup => h.power group (hsub.subset hgroup)
  two_le := fun group hgroup => h.two_le group (hsub.subset hgroup)
  squarefree := fun group hgroup => h.squarefree group (hsub.subset hgroup)
  smooth := fun group hgroup => h.smooth group (hsub.subset hgroup)
  powers := h.powers.sublist (hsub.map _)
  coprime := h.coprime.sublist hsub

theorem IsRootForm.isSmooth (h : IsRootForm c groups) :
    ∀ root ∈ rootsOfGroups groups, IsSmooth root.1 := by
  refine List.forall_mem_map.mpr fun group hgroup => ?_
  exact ⟨group.2, by have := h.two_le group hgroup; omega, rfl, h.smooth group hgroup⟩

/-! ## The canonical form of roots -/

theorem squarefree_prod_of_primes {primes : List Nat} (hprime : ∀ q ∈ primes, q.Prime)
    (hnodup : primes.Nodup) : Squarefree primes.prod := by
  induction primes with
  | nil => exact squarefree_one
  | cons q rest ih =>
      obtain ⟨hq, hrest⟩ := List.forall_mem_cons.mp hprime
      obtain ⟨hfresh, hnodup⟩ := List.nodup_cons.mp hnodup
      rw [List.prod_cons, Nat.squarefree_mul_iff]
      refine ⟨?_, hq.squarefree, ih hrest hnodup⟩
      refine (Nat.Prime.coprime_iff_not_dvd hq).mpr fun hdvd => hfresh ?_
      obtain ⟨r, hr, hqr⟩ := (Prime.dvd_prod_iff hq.prime).mp hdvd
      rwa [(Nat.prime_dvd_prime_iff_eq hq (hrest r hr)).mp hqr]

/-- Small primes and their exponents, split into a coefficient and groups. -/
theorem isRootForm_parts {exponents : Exponents} (h : IsExponents [] exponents) :
    IsRootForm (integralPart exponents) (fractionalPart exponents) := by
  have hprime : ∀ power, ∀ q ∈ members power exponents,
      q.Prime ∧ q ≤ Factor.defaultLimit := by
    intro power q hq
    obtain ⟨x, hx, -⟩ := mem_members.mp hq
    exact h.small (q, x) hx (by simp)
  have hbase : ∀ group ∈ fractionalPart exponents,
      group.2 = (members group.1 exponents).prod :=
    fun group hgroup => (mem_fractionalPart.mp hgroup).2.2
  -- a prime in the base of a group is one of its members
  have hmem : ∀ group ∈ fractionalPart exponents, ∀ q : Nat, q.Prime → q ∣ group.2 →
      q ∈ members group.1 exponents := by
    intro group hgroup q hq hdvd
    rw [hbase group hgroup] at hdvd
    obtain ⟨r, hr, hqr⟩ := (Prime.dvd_prod_iff hq.prime).mp hdvd
    rwa [(Nat.prime_dvd_prime_iff_eq hq (hprime _ r hr).1).mp hqr]
  have hpowers : ((fractionalPart exponents).map Prod.fst).Nodup := powers_fractionalPart exponents
  refine ⟨integralPart_pos h.two_le, ?_, fun _ hgroup => h.two_le_base hgroup, ?_, ?_, hpowers, ?_⟩
  · intro group hgroup
    obtain ⟨hzero, hne, -⟩ := mem_fractionalPart.mp hgroup
    obtain ⟨q, hq⟩ := List.exists_mem_of_ne_nil _ hne
    obtain ⟨x, -, hx⟩ := mem_members.mp hq
    rw [← hx] at hzero ⊢
    exact ⟨(fraction_nonneg x).lt_of_ne (Ne.symm hzero), fraction_lt_one x⟩
  · intro group hgroup
    rw [hbase group hgroup]
    exact squarefree_prod_of_primes (fun q hq => (hprime _ q hq).1) (h.nodup_members _)
  · exact fun group hgroup q hq hdvd => (hprime _ q (hmem group hgroup q hq hdvd)).2
  · refine (List.pairwise_map.mp hpowers).imp_of_mem fun {a b} ha hb hne => ?_
    refine Nat.Coprime.symm (Nat.coprime_of_dvd fun q hq hqb hqa => hne ?_)
    exact h.power_eq_of_mem (hmem a ha q hq hqa) (hmem b hb q hq hqb)

/-- Powers of smooth numbers combine to a coefficient and groups with the same exponents. -/
theorem exists_combineRadicals_smooth (mode : Mode) (hroots : ∀ root ∈ roots, IsSmooth root.1) :
    ∃ c groups,
      combineRadicals mode roots = .ok ⟨c, (rootsOfGroups groups).map radicalOf, []⟩ ∧
      IsRootForm c groups ∧ SameExponents (formRoots c groups) roots := by
  obtain ⟨large, exponents, hexponents, hcombine, hvalue, hlarge⟩ :=
    exists_combineRadicals_whole mode fun root hroot => (hroots root hroot).isWhole
  obtain rfl := hlarge hroots
  refine ⟨integralPart exponents, fractionalPart exponents, hcombine,
    isRootForm_parts hexponents, fun q _ => ?_⟩
  rw [formRoots, primeExponent_cons, one_mul, hvalue q]

/-! ## The shape of a product of roots -/

theorem keyed_radicals (groups : List (Rat × Nat)) :
    keyed ((rootsOfGroups groups).map radicalOf) = groups.map fun group =>
      ((radicalOf (group.2, group.1)).multiplicativeKey, radicalOf (group.2, group.1)) := by
  simp [keyed, rootsOfGroups]

theorem IsRootForm.distinct (h : IsRootForm c groups) :
    Slots.Distinct (keyed ((rootsOfGroups groups).map radicalOf)) := by
  rw [keyed_radicals, Slots.Distinct, List.map_map, List.Nodup, List.pairwise_map]
  refine h.coprime.imp_of_mem fun {a b} ha _ hcoprime heq => ?_
  have hbase : a.2 = b.2 := by
    simpa [multiplicativeKey, radicalOf, isAtomSum, isSum, baseKey] using heq
  have htwo := h.two_le a ha
  rw [← hbase, Nat.coprime_self] at hcoprime
  omega

theorem rootProduct_nil (c : Rat) : rootProduct c [] = .number c := rfl

theorem rootProduct_singleton (c : Rat) (group : Rat × Nat) :
    rootProduct c [group] = .radical c group.2 group.1 := rfl

theorem rootProduct_of_two_le (h : IsRootForm c groups) (htwo : 2 ≤ groups.length) (c' : Rat) :
    rootProduct c' groups = .product c' 1 (keyed ((rootsOfGroups groups).map radicalOf)) :=
  productOf_of_two_le (by simpa [rootsOfGroups] using htwo) h.distinct

theorem rootProduct_parts (h : groups ≠ []) (hform : IsRootForm c groups) (c' : Rat) :
    (rootProduct c groups).isNumber = false ∧ (rootProduct c groups).coeff = c ∧
      (rootProduct c groups).withCoeff c' = rootProduct c' groups := by
  match groups, h with
  | [group], _ => exact ⟨rfl, rfl, rfl⟩
  | first :: second :: rest, _ =>
      rw [rootProduct_of_two_le hform (by simp), rootProduct_of_two_le hform (by simp)]
      exact ⟨rfl, rfl, rfl⟩

theorem scale_rootProduct (hform : IsRootForm c groups) (hc' : c' ≠ 0) :
    scale c' (rootProduct c groups) = rootProduct (c * c') groups := by
  match groups with
  | [] => exact scale_number c' c
  | [group] => exact scale_of_not_isExpandedSum hc' rfl
  | first :: second :: rest =>
      rw [rootProduct_of_two_le hform (by simp), rootProduct_of_two_le hform (by simp)]
      exact scale_product hc' c _

theorem Represents.scale (h : Represents roots (.ok node)) (hc : 0 < c) :
    Represents ((c, 1) :: roots) (.ok (scale c node)) := by
  obtain ⟨c', groups, hnode, hform, hroots⟩ := h
  obtain rfl := Except.ok.inj hnode
  refine ⟨c' * c, groups, by rw [scale_rootProduct hform hc.ne'],
    hform.withCoefficient (mul_pos hform.coefficient hc), fun q _ => ?_⟩
  rw [primeExponent_cons, ← hroots q, formRoots, formRoots, primeExponent_cons, primeExponent_cons,
    padicValRat.mul hform.coefficient.ne' hc.ne']
  push_cast
  ring

/-! ## Powers of one number -/

theorem buildProduct_nil (mode : Mode) (fuel : Nat) (c : Rat) (factors : List Expr) :
    buildProduct mode (fuel + 1) c factors [] = .ok (productOf c factors) := by
  rw [buildProduct.eq_def]
  rfl

theorem represents_number (hc : 0 < c) : Represents [(c, 1)] (.ok (.number c)) :=
  represents_rootProduct (isRootForm_nil hc)

/-- A power of a positive rational: a constant, a quotient of powers, or radicals. -/
theorem numberPower_of_pos (fuel : Nat) (hmode : mode.numeric = false) {base : Rat}
    (hbase : 0 < base) (power : Rat) :
    (∃ c, 0 < c ∧ SameExponents [(c, 1)] [(base, power)] ∧
      numberPower mode (fuel + 1) base power = .ok (.number c)) ∨
    numberPower mode (fuel + 1) base power =
      if base.den ≠ 1 then (do
        let above ← numberPower mode fuel base.num power
        let below ← numberPower mode fuel base.den (-power)
        combineFactors mode fuel above below)
      else (do
        let form ← combineRadicals mode [(base, power)]
        buildProduct mode fuel form.coefficient form.factors form.extras) := by
  rw [numberPower.eq_def]
  simp only [if_neg hbase.ne', if_neg hbase.not_gt, hmode, Bool.false_eq_true, if_false]
  by_cases htrivial : power = 0 ∨ base = 1
  · rw [if_pos htrivial]
    refine .inl ⟨1, one_pos, fun q _ => ?_, rfl⟩
    rcases htrivial with rfl | rfl <;> simp
  rw [if_neg htrivial]
  by_cases hinteger : Ratio.isInteger power = true
  · rw [if_pos hinteger]
    have hnum : (power.num : Rat) = power := (Rat.den_eq_one_iff power).mp
      (by simpa [Ratio.isInteger] using hinteger)
    refine .inl ⟨_, ratio_power_pos hbase _, fun q _ => ?_, rfl⟩
    rw [primeExponent_cons, primeExponent_cons, padicValRat_ratio_power]
    push_cast
    rw [hnum, one_mul]
  · rw [if_neg hinteger]
    exact .inr rfl

/-- A rational power of a smooth number. -/
theorem represents_numberPower_smooth (hmode : mode.numeric = false) {base : Rat}
    (hbase : IsSmooth base) (power : Rat) :
    Represents [(base, power)] (numberPower mode (fuel + 2) base power) := by
  obtain ⟨c, groups, hcombine, hform, hroots⟩ := exists_combineRadicals_smooth mode
    (show ∀ root ∈ [(base, power)], IsSmooth root.1 by simpa using hbase)
  obtain ⟨n, hn, rfl, -⟩ := hbase
  have hden : ¬ ((n : Rat).den ≠ 1) := by simp
  have hpos : (0 : Rat) < n := by exact_mod_cast hn
  rcases numberPower_of_pos (fuel + 1) hmode hpos power with ⟨c, hc, hsame, hstep⟩ | hstep
  · rw [hstep]
    exact (represents_number hc).congr hsame
  · rw [hstep, if_neg hden, hcombine]
    exact ⟨c, groups, buildProduct_nil mode fuel c _, hform, hroots⟩

/-! ## Products -/

theorem primeExponent_radical (q : Nat) (group : Rat × Nat) :
    primeExponent q (formRoots 1 [group]) = primeExponent q [((group.2 : Rat), group.1)] := by
  simp [formRoots, rootsOfGroups]

/-- Powers of one base add their exponents. -/
theorem combinePowers_radicals (base base' power power' : Rat) :
    combinePowers mode (fuel + 2) (.radical 1 base power) (.radical 1 base' power') =
      numberPower mode fuel base (power + power') := by
  rw [combinePowers.eq_def]
  simp only [exponent, degreePower, addExponents, baseOf, bind, Except.bind, coeff, mul_one]
  rw [raiseBase.eq_def]
  simp only [asNode, asExponent, scale_one]
  cases numberPower mode fuel base (power + power') <;> rfl

/-- Two radicals. -/
theorem represents_multiplyContent_radicals (hmode : mode.numeric = false)
    {group group' : Rat × Nat} (h : IsRootForm 1 [group]) (h' : IsRootForm 1 [group']) :
    Represents (formRoots 1 [group] ++ formRoots 1 [group'])
      (multiplyContent mode (fuel + 5) (rootProduct 1 [group]) (rootProduct 1 [group'])) := by
  have hbase : IsSmooth (group.2 : Rat) := h.isSmooth ((group.2 : Rat), group.1) List.mem_cons_self
  have hbase' : IsSmooth (group'.2 : Rat) :=
    h'.isSmooth ((group'.2 : Rat), group'.1) List.mem_cons_self
  rw [rootProduct_singleton, rootProduct_singleton, multiplyContent.eq_def]
  simp only [isExpandedSum, isSum, Bool.false_and, Bool.or_self, Bool.false_eq_true, if_false,
    multiplicativeKey, isAtomSum, baseKey, Key.cons.injEq, Key.rational.injEq, and_true]
  split_ifs with hkey
  · rw [combinePowers_radicals]
    refine (represents_numberPower_smooth hmode hbase (group.1 + group'.1)).congr fun q _ => ?_
    rw [primeExponent_append, primeExponent_radical, primeExponent_radical, ← hkey]
    simp only [primeExponent_cons, primeExponent_nil]
    ring
  · obtain ⟨c, groups, hcombine, hform, hroots⟩ := exists_combineRadicals_smooth mode
      (show ∀ root ∈ [((group.2 : Rat), group.1), ((group'.2 : Rat), group'.1)], IsSmooth root.1
        by simpa using ⟨hbase, hbase'⟩)
    refine ⟨c, groups, ?_, hform, fun q _ => ?_⟩
    · rw [hcombine]
      exact buildProduct_nil mode (fuel + 3) c _
    · rw [hroots q, primeExponent_append, primeExponent_radical, primeExponent_radical]
      simp

theorem collapse_radicals (h : IsRootForm c groups) :
    collapse (.product c 1 (keyed ((rootsOfGroups groups).map radicalOf))) =
      rootProduct c groups := by
  match groups with
  | [] => rfl
  | [group] => exact scale_factor h.coefficient.ne' rfl rfl
  | first :: second :: rest =>
      rw [rootProduct_of_two_le h (by simp), collapse_two_le (by simp [keyed, rootsOfGroups])]

theorem group_of_mem_keyed {slot : Key × Expr} (h : slot ∈ keyed (roots.map radicalOf)) :
    slot.2.group = .radical := by
  obtain ⟨factor, hfactor, rfl⟩ := List.mem_map.mp h
  obtain ⟨root, -, rfl⟩ := List.mem_map.mp hfactor
  rfl

/-- The radicals of a product of roots, and no other factors. -/
theorem splitRadicals_keyed (roots : List (Rat × Rat)) :
    splitRadicals (keyed (roots.map radicalOf)) = (roots, []) := by
  refine Prod.ext (radicals_map_radicalOf roots) (List.filter_eq_nil_iff.mpr fun slot hslot => ?_)
  simp [group_of_mem_keyed hslot]

/-- A product and one more radical. -/
theorem represents_insertRadical (mode : Mode) (fuel : Nat) (h : IsRootForm 1 groups)
    (htwo : 2 ≤ groups.length) {group : Rat × Nat} (h' : IsRootForm 1 [group]) :
    Represents (formRoots 1 groups ++ formRoots 1 [group])
      (insertRadical mode (fuel + 1) (rootProduct 1 groups) (rootProduct 1 [group])) := by
  obtain ⟨c, groups', hcombine, hform, hroots⟩ := exists_combineRadicals_smooth mode
    (List.forall_mem_append.mpr ⟨h.isSmooth, h'.isSmooth⟩)
  refine ⟨c, groups', ?_, hform, fun q _ => ?_⟩
  · have hradical : splitRadicals
        [((rootProduct 1 [group]).multiplicativeKey, rootProduct 1 [group])] =
          (rootsOfGroups [group], []) := splitRadicals_keyed (rootsOfGroups [group])
    have hplace : placeFactors [] ((rootsOfGroups groups').map radicalOf) =
        (keyed ((rootsOfGroups groups').map radicalOf), []) :=
      placeFactors_of_distinct hform.distinct
    rw [insertRadical.eq_def]
    simp only [hradical]
    rw [rootProduct_of_two_le h htwo]
    simp only [Expr.slots, splitRadicals_keyed, hcombine, hplace, bind, Except.bind, Expr.withCoeff,
      Expr.withSlots, Expr.coeff, one_mul, List.nil_append]
    rw [collapse_radicals hform]
    rfl
  · rw [hroots q]
    simp [formRoots]

/-- Among radicals a radical is recombined with all of them. -/
theorem insertFactor_of_radicals {slots : Slots}
    (hslots : ∀ slot ∈ slots, slot.2.group = .radical) (base power : Rat) :
    insertFactor mode (fuel + 1) (.product c 1 slots) (.radical 1 base power) =
      insertRadical mode fuel (.product c 1 slots) (.radical 1 base power) := by
  have hsum : (Expr.radical 1 base power).isExpandedSum = false := rfl
  have hradical : (Expr.radical 1 base power).group = .radical := rfl
  rw [insertFactor.eq_def]
  cases hfind : Slots.find? (Expr.radical 1 base power).multiplicativeKey slots with
  | none => simp [hsum, hradical, Expr.slots, hfind]
  | some old =>
      simp [hsum, hradical, Expr.slots, hfind, hslots _ (Slots.mem_of_find? hfind)]

theorem represents_insertFactor (mode : Mode) (fuel : Nat) (h : IsRootForm 1 groups)
    (htwo : 2 ≤ groups.length) {group : Rat × Nat} (h' : IsRootForm 1 [group]) :
    Represents (formRoots 1 groups ++ formRoots 1 [group])
      (insertFactor mode (fuel + 2) (rootProduct 1 groups) (rootProduct 1 [group])) := by
  have hinsert := represents_insertRadical mode fuel h htwo h'
  rw [rootProduct_of_two_le h htwo] at hinsert ⊢
  rwa [rootProduct_singleton, insertFactor_of_radicals fun slot => group_of_mem_keyed]

/-- Products of roots, of which the second is one radical. -/
theorem represents_multiplyContent_radical (hmode : mode.numeric = false) (h : IsRootForm 1 groups)
    (hne : groups ≠ []) {group : Rat × Nat} (h' : IsRootForm 1 [group]) :
    Represents (formRoots 1 groups ++ formRoots 1 [group])
        (multiplyContent mode (fuel + 5) (rootProduct 1 groups) (rootProduct 1 [group])) ∧
      Represents (formRoots 1 groups ++ formRoots 1 [group])
        (multiplyContent mode (fuel + 5) (rootProduct 1 [group]) (rootProduct 1 groups)) := by
  match groups, hne with
  | [first], _ =>
      refine ⟨represents_multiplyContent_radicals hmode h h',
        (represents_multiplyContent_radicals hmode h' h).congr fun q _ => ?_⟩
      simp [add_comm]
  | first :: second :: rest, _ =>
      have hinsert := represents_insertFactor mode (fuel + 2) h (by simp) h'
      have hstep := multiplyContent_insert mode (fuel + 4) 1
        (keyed ((rootsOfGroups (first :: second :: rest)).map radicalOf))
        (show (rootProduct 1 [group]).isFactor = true from rfl)
      rw [← rootProduct_of_two_le h (by simp)] at hstep
      rw [hstep.1, hstep.2]
      exact ⟨hinsert, hinsert⟩

theorem Represents.map_scale {outcome : Except Fault Expr} (h : Represents roots outcome)
    (hc : 0 < c) : Represents ((c, 1) :: roots) (outcome.map (Reduce.scale c)) := by
  obtain ⟨c', groups, rfl, hform, hroots⟩ := h
  exact Represents.scale ⟨c', groups, rfl, hform, hroots⟩ hc

/-- The product of two products of roots, from those of their contents. -/
theorem represents_combineFactors_of_content (h : IsRootForm c groups) (h' : IsRootForm c' groups')
    (hcontent : groups ≠ [] → groups' ≠ [] →
      Represents (formRoots 1 groups ++ formRoots 1 groups')
          (multiplyContent mode fuel (rootProduct 1 groups) (rootProduct 1 groups')) ∧
        Represents (formRoots 1 groups ++ formRoots 1 groups')
          (multiplyContent mode fuel (rootProduct 1 groups') (rootProduct 1 groups))) :
    Represents (formRoots c groups ++ formRoots c' groups')
      (combineFactors mode (fuel + 1) (rootProduct c groups) (rootProduct c' groups')) := by
  by_cases hgroups : groups = []
  · subst hgroups
    rw [rootProduct_nil, (combineFactors_number mode fuel c _).2]
    exact (represents_rootProduct h').scale h.coefficient
  by_cases hgroups' : groups' = []
  · subst hgroups'
    rw [rootProduct_nil, (combineFactors_number mode fuel c' _).1]
    refine ((represents_rootProduct h).scale h'.coefficient).congr fun q _ => ?_
    simp [formRoots, rootsOfGroups]
    ring
  obtain ⟨hnumber, hcoeff, hwith⟩ := rootProduct_parts hgroups h 1
  obtain ⟨hnumber', hcoeff', hwith'⟩ := rootProduct_parts hgroups' h' 1
  obtain ⟨hone, hother⟩ := hcontent hgroups hgroups'
  have hpos : 0 < c * c' := mul_pos h.coefficient h'.coefficient
  have hsame : SameExponents ((c * c', 1) :: (formRoots 1 groups ++ formRoots 1 groups'))
      (formRoots c groups ++ formRoots c' groups') := fun q _ => by
    simp only [formRoots, primeExponent_cons, primeExponent_append, padicValRat.one,
      padicValRat.mul h.coefficient.ne' h'.coefficient.ne', List.cons_append]
    push_cast
    ring
  obtain ⟨x, y, ⟨rfl, rfl⟩ | ⟨rfl, rfl⟩, hstep⟩ :=
    combineFactors_eq_map mode hnumber hnumber'
  · rw [hstep, hwith, hwith', hcoeff, hcoeff']
    exact (hone.map_scale hpos).congr hsame
  · rw [hstep, hwith, hwith', hcoeff, hcoeff']
    exact (hother.map_scale hpos).congr hsame

/-- A product of roots and one more radical. -/
theorem Represents.combineFactors_radical (hmode : mode.numeric = false)
    (h : Represents roots (.ok node)) {group : Rat × Nat} (hgroup : IsRootForm 1 [group]) :
    Represents (roots ++ formRoots 1 [group])
      (combineFactors mode (fuel + 6) node (rootProduct 1 [group])) := by
  obtain ⟨c, groups, hnode, hform, hroots⟩ := h
  obtain rfl := Except.ok.inj hnode
  refine (represents_combineFactors_of_content hform hgroup fun hne _ => ?_).congr
    (hroots.append fun _ _ => rfl)
  exact represents_multiplyContent_radical hmode (hform.withCoefficient one_pos) hne hgroup

theorem Represents.bind {outcome : Except Fault Expr} {f : Expr → Except Fault Expr}
    {roots' : List (Rat × Rat)} (h : Represents roots outcome)
    (hf : ∀ node, Represents roots (.ok node) → Represents roots' (f node)) :
    Represents roots' (outcome >>= f) := by
  obtain ⟨c, groups, rfl, hform, hroots⟩ := h
  exact hf _ ⟨c, groups, rfl, hform, hroots⟩

/-- A product of roots and some radicals, one after the other. -/
theorem Represents.foldlM_radicals (fuel : Nat) (hmode : mode.numeric = false)
    (h : Represents roots (.ok node)) (hgroups : IsRootForm 1 groups) :
    Represents (roots ++ rootsOfGroups groups)
      (((rootsOfGroups groups).map radicalOf).foldlM
        (fun total factor => combineFactors mode (fuel + 6) total factor) node) := by
  induction groups generalizing roots node with
  | nil => exact h.congr fun q _ => by simp [rootsOfGroups]
  | cons group rest ih =>
      have hfirst := hgroups.sublist
        (show [group].Sublist (group :: rest) from List.singleton_sublist.mpr List.mem_cons_self)
      have hrest := hgroups.sublist (List.sublist_cons_self group rest)
      refine (h.combineFactors_radical hmode hfirst).bind fun node' h' => ?_
      refine (ih h' hrest).congr fun q _ => ?_
      simp [formRoots, rootsOfGroups]

/-- The product of two products of roots. -/
theorem represents_multiplyContent (hmode : mode.numeric = false) (h : IsRootForm 1 groups)
    (hne : groups ≠ []) (h' : IsRootForm 1 groups') (hne' : groups' ≠ []) :
    Represents (formRoots 1 groups ++ formRoots 1 groups')
      (multiplyContent mode (fuel + 7) (rootProduct 1 groups) (rootProduct 1 groups')) := by
  match groups', hne' with
  | [group'], _ => exact (represents_multiplyContent_radical hmode h hne h').1
  | first' :: second' :: rest', hne' =>
      match groups, hne with
      | [group], _ =>
          refine (represents_multiplyContent_radical hmode h' hne' h).2.congr fun q _ => ?_
          simp [add_comm]
      | first :: second :: rest, _ =>
          have hchildren : Slots.children (keyed
              ((rootsOfGroups (first' :: second' :: rest')).map radicalOf)) =
              (rootsOfGroups (first' :: second' :: rest')).map radicalOf := by
            simp [Slots.children, keyed]
          have hfold := (represents_rootProduct h).foldlM_radicals fuel hmode h'
          rw [rootProduct_of_two_le h' (by simp)]
          rw [rootProduct_of_two_le h (by simp)] at hfold ⊢
          rw [multiplyContent.eq_def]
          simp only [hchildren]
          refine hfold.congr fun q _ => ?_
          simp [formRoots]

/-- Multiplication adds exponents. -/
theorem Represents.combineFactors (hmode : mode.numeric = false) {node' : Expr}
    {roots' : List (Rat × Rat)} (h : Represents roots (.ok node))
    (h' : Represents roots' (.ok node')) :
    Represents (roots ++ roots') (Reduce.combineFactors mode (fuel + 8) node node') := by
  obtain ⟨c, groups, hnode, hform, hroots⟩ := h
  obtain ⟨c', groups', hnode', hform', hroots'⟩ := h'
  obtain rfl := Except.ok.inj hnode
  obtain rfl := Except.ok.inj hnode'
  refine (represents_combineFactors_of_content hform hform' fun hne hne' => ⟨?_, ?_⟩).congr
    (hroots.append hroots')
  · exact represents_multiplyContent hmode (hform.withCoefficient one_pos) hne
      (hform'.withCoefficient one_pos) hne'
  · refine (represents_multiplyContent hmode (hform'.withCoefficient one_pos) hne'
      (hform.withCoefficient one_pos) hne).congr fun q _ => ?_
    simp [add_comm]

/-! ## Powers -/

/-- A positive rational without large primes. -/
def IsSmoothRatio (base : Rat) : Prop :=
  0 < base ∧ Factor.Smooth Factor.defaultLimit base.num.natAbs ∧
    Factor.Smooth Factor.defaultLimit base.den

theorem isSmoothRatio_of_le {base : Rat} (hpos : 0 < base)
    (hnum : base.num.natAbs ≤ Factor.defaultLimit) (hden : base.den ≤ Factor.defaultLimit) :
    IsSmoothRatio base := by
  have hne : base.num.natAbs ≠ 0 := Int.natAbs_ne_zero.mpr (Rat.num_pos.mpr hpos).ne'
  exact ⟨hpos, fun q _ hdvd => (Nat.le_of_dvd (by omega) hdvd).trans hnum,
    fun q _ hdvd => (Nat.le_of_dvd base.den_pos hdvd).trans hden⟩

/-- A power of a positive rational. -/
theorem represents_numberPower (hmode : mode.numeric = false) {base : Rat}
    (hbase : IsSmoothRatio base) (power : Rat) :
    Represents [(base, power)] (numberPower mode (fuel + 9) base power) := by
  obtain ⟨hpos, hnum, hden⟩ := hbase
  have hnumpos : 0 < base.num := Rat.num_pos.mpr hpos
  have hcast : (base.num : Rat) = (base.num.natAbs : Rat) := by
    rw [← Int.cast_natCast, Int.natAbs_of_nonneg hnumpos.le]
  have habove : IsSmooth (base.num : Rat) := ⟨base.num.natAbs, by omega, hcast, hnum⟩
  have hbelow : IsSmooth (base.den : Rat) := ⟨base.den, base.den_pos, rfl, hden⟩
  rcases numberPower_of_pos (fuel + 8) hmode hpos power with ⟨c, hc, hsame, hstep⟩ | hstep
  · rw [hstep]
    exact (represents_number hc).congr hsame
  by_cases hinteger : base.den = 1
  · have hwhole : (base.num : Rat) = base := (Rat.den_eq_one_iff base).mp hinteger
    rw [hwhole] at habove
    exact represents_numberPower_smooth hmode habove power
  have hsplit : SameExponents ([((base.num : Rat), power)] ++ [((base.den : Rat), -power)])
      [(base, power)] := fun q _ => by
    have hquotient : padicValRat q base =
        padicValRat q (base.num : Rat) - padicValRat q (base.den : Rat) := by
      rw [← padicValRat.div (by exact_mod_cast hnumpos.ne') (by exact_mod_cast base.den_nz),
        Rat.num_div_den]
    simp only [primeExponent_append, primeExponent_cons, primeExponent_nil, hquotient]
    push_cast
    ring
  rw [hstep, if_pos hinteger]
  refine (represents_numberPower_smooth hmode habove power).bind fun above habove => ?_
  refine (represents_numberPower_smooth hmode hbelow (-power)).bind fun below hbelow => ?_
  exact (habove.combineFactors hmode hbelow).congr hsplit

end ExactAlgebra.Reduce
