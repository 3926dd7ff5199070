import ExactAlgebra.Proofs.Value.RootPower
import ExactAlgebra.Proofs.Value.Steady

/-!
# Factors of steady expressions

A factor of a steady expression joins a steady term, and the outcome is read as the product.
Radicals are recombined with all radicals of the term.  Other factors are multiplied with the
factor in their slot only, where the base bears the sum of the exponents; two imaginary units
make minus one.
-/

namespace ExactAlgebra

open ExactAlgebra.Expr Reduce
open FormalReading (rooted)

variable {mode : Mode} {hasRoots : Key → Prop} {fuel : Nat} {c : Rat} {groups : List (Rat × Nat)}
  {roots : List (Rat × Rat)} {slots : Slots} {a b base exponent old factor node : Expr}
  {total : Key →₀ Rat}

theorem Reduce.IsTermPart.keyed_snd {A : Type*} [CommRing A] [Algebra Rat A] {V : FormalReading A}
    (h : IsTermPart V slots) {slot : Key × Expr} (hslot : slot ∈ slots) : keyed [slot.2] = [slot] :=
  congrArg (fun slot => [slot]) (Prod.ext (h.part.key slot hslot).symm rfl)

theorem Reduce.FormsTerm.comm {A : Type*} [CommRing A] [Algebra Rat A] {V : FormalReading A}
    {outcome : Except Fault Expr} {x y : A} (h : FormsTerm V outcome (x * y)) :
    FormsTerm V outcome (y * x) := mul_comm x y ▸ h

/-- The factors of a term that is no constant. -/
theorem Canonical.exists_content (h : Canonical (.rooted mode hasRoots) node)
    (hsum : node.isExpandedSum = false) (hnumber : node.isNumber = false) :
    ∃ slots, slots ≠ [] ∧ IsTermPart (rooted mode hasRoots) slots ∧
      node.withCoeff 1 = collapse (.product 1 1 slots) ∧
      (rooted mode hasRoots).read node.formal =
        node.coeff • (rooted mode hasRoots).readSlots slots := by
  obtain ⟨c, slots, hc, hslots, rfl⟩ :=
    exists_collapse_eq (V := rooted mode hasRoots) h hsum (isZero_of_isNumber hnumber)
  have hne : slots ≠ [] := by
    rintro rfl
    cases hnumber
  obtain ⟨-, hcoeff, hcontent⟩ := collapse_parts hc hslots.part hne
  obtain ⟨_, hok, -, -, hvalue⟩ := formsTerm_collapse hc hslots
  obtain rfl := Except.ok.inj hok
  exact ⟨slots, hne, hslots, hcontent, hcoeff.symm ▸ hvalue⟩

/-! ## Exponents that a base bears -/

theorem readsAtoms_rooted (mode : Mode) (hasRoots : Key → Prop) :
    ReadsAtoms (rooted mode hasRoots) mode :=
  ⟨fun hname heq => absurd heq hname, trivial, .inl⟩

theorem Reduce.IsLoose.isSteady (h : IsLoose (rooted mode hasRoots) factor) :
    IsSteady mode hasRoots factor :=
  Canonical.isSteady h.canonical h.isFactor

/-- The base of a factor, raised to any exponent with some coefficients, is a constant or a
factor in the same slot. -/
def Bears (mode : Mode) (hasRoots : Key → Prop) (factor : Expr) (total : Key →₀ Rat) : Prop :=
  ∀ fuel sum, Canonical (.rooted mode hasRoots) sum → sum.linear = total →
    ∃ node, raiseBase mode (fuel + 2) factor.baseOf (asExponent sum) = .ok node ∧
      IsUnion (rooted mode hasRoots) factor.multiplicativeKey total node

theorem bears_of_isAtom (hfactor : IsLoose (rooted mode hasRoots) factor)
    (h : IsAtom mode factor.baseOf) (total : Key →₀ Rat) : Bears mode hasRoots factor total := by
  rintro fuel sum hsum rfl
  have hV := readsAtoms_rooted mode hasRoots
  rw [h.multiplicativeKey hfactor.canonical hfactor.isFactor]
  exact h.exists_raiseBase hV (h.canonical_baseOf hV hfactor) fuel hsum

theorem Reduce.IsAtom.isExpandedSum (h : IsAtom mode base) : base.isExpandedSum = false := by
  cases h <;> rfl

theorem IsBearer.not_isAtom (h : IsBearer hasRoots base) : ¬ IsAtom mode base := by
  rintro (_ | _) <;> rcases h with ⟨hsum, -⟩ | ⟨_, hvalue, -⟩ <;> first | cases hsum | cases hvalue

theorem IsBearer.raiseBase_zero (h : IsBearer hasRoots base) (hzero : base.isZero = false)
    (fuel : Nat) : raiseBase mode (fuel + 2) base (.rational 0) = .ok (.number 1) := by
  rcases h with ⟨hsum, -⟩ | ⟨value, rfl, -⟩
  · refine Reduce.raiseBase_zero ?_
    cases base <;> first | rfl | cases hsum
  · have hvalue : value ≠ 0 := by simpa [isZero] using hzero
    rw [raiseBase.eq_def]
    simp only [asExponent, asNode]
    rw [numberPower.eq_def]
    simp only [hvalue, if_false, true_or, if_true]

theorem bears_of_isBearer (hfactor : IsLoose (rooted mode hasRoots) (.exponential 1 base exponent))
    (h : IsBearer hasRoots base) (htotal : total constantMark = 0) :
    Bears mode hasRoots (.exponential 1 base exponent) total := by
  rintro fuel sum hsum rfl
  have hcanonical : Canonical (.rooted mode hasRoots) (.exponential 1 base exponent) :=
    hfactor.canonical
  cases hnumber : sum.isNumber with
  | true =>
      obtain ⟨p, rfl⟩ := exists_eq_number hnumber
      obtain rfl : p = 0 := by simpa using htotal
      refine ⟨.number 1, h.raiseBase_zero ?_ fuel, ?_⟩
      · cases hcanonical with
        | constantBase _ hzero => simpa [isZero] using hzero
        | plainBase _ hplain => exact isZero_of_isNumber (isNumber_of_isPlain hplain)
      · rw [linear_number, Finsupp.single_zero]
        exact .one _ _
  | false =>
      have hconstant : constantTerm sum = 0 := (constantTerm_eq_linear hsum hnumber).trans htotal
      have hnode : Canonical (.rooted mode hasRoots) (.exponential 1 base sum) ∧
          raiseBase mode (fuel + 2) base (.symbolic sum) = .ok (.exponential 1 base sum) := by
        cases hcanonical with
        | constantBase _ hzero hone =>
            refine ⟨.constantBase one_ne_zero hzero hone (.inr ⟨h, hconstant⟩) hsum hnumber, ?_⟩
            rcases h with ⟨hcases, -⟩ | ⟨_, ⟨⟩, hreduced⟩
            · cases hcases
            · exact raiseBase_constantBase hzero hone (hreduced sum) hconstant hnumber
        | plainBase _ hplain _ hbase =>
            refine ⟨.plainBase one_ne_zero hplain (.inr ⟨h, hconstant⟩) hbase hsum hnumber, ?_⟩
            rw [raiseBase.eq_def]
            simp only [asNode, asExponent_of_not_isNumber hnumber]
            exact exponential_of_isPlain hplain
      refine ⟨_, (asExponent_of_not_isNumber hnumber) ▸ hnode.2,
        .factor ⟨hnode.1, rfl, rfl, by simp [group]⟩ ?_ rfl⟩
      rw [multiplicativeKey_exponential, multiplicativeKey_exponential]

theorem Canonical.withPower_baseOf (h : Canonical (.rooted mode hasRoots) factor)
    (hsum : factor.isAtomSum = true) {p : Rat} (hp : p < 0) :
    Canonical (.rooted mode hasRoots) (factor.baseOf.withPower p) := by
  have hshape : IsSum 1 p := .inr ⟨one_ne_zero, .inl hp⟩
  cases h with
  | polynomial _ _ hslots hterms =>
      exact .polynomial hshape (fun _ hpos => absurd hpos hp.not_gt) hslots hterms
  | composite _ _ hslots hterms =>
      exact .composite hshape (fun _ hpos => absurd hpos hp.not_gt) hslots hterms
  | _ => cases hsum

theorem Expr.multiplicativeKey_baseOf_withPower (h : factor.isAtomSum = true)
    (hneg : factor.degreePower < 0) {p : Rat} (hp : p < 0) :
    (factor.baseOf.withPower p).multiplicativeKey = factor.multiplicativeKey := by
  have hne : p ≠ 1 := by linarith
  have hne' : factor.degreePower ≠ 1 := by linarith
  cases factor <;> simp only [isAtomSum, isSum, Bool.false_and, Bool.false_eq_true] at h <;>
    simp_all [multiplicativeKey, baseOf, withPower, withCoeff, isAtomSum, isSum, degreePower,
      baseKey, content]

theorem bears_of_isAtomSum (hfactor : IsLoose (rooted mode hasRoots) factor)
    (hsum : factor.isAtomSum = true) (hneg : factor.degreePower < 0) {p : Rat} (hp : p < 0) :
    Bears mode hasRoots factor (.single constantMark p) := by
  intro fuel sum hcanonical hlinear
  obtain ⟨q, rfl⟩ := exists_eq_number (hcanonical.proper_of_rooted.isNumber_of_linear hlinear)
  obtain rfl : q = p := by
    have hconstant := congrArg (· constantMark) hlinear
    simpa using hconstant
  have hbase := isExpandedSum_baseOf hsum
  have hpower := degreePower_withPower hbase q
  have hne : q ≠ 1 := by linarith
  have hatom : (factor.baseOf.withPower q).isAtomSum = true := by
    rw [isAtomSum, hpower, isSum_withPower, (isExpandedSum_iff.mp hbase).1]
    simpa using hne
  have hcoeff : (factor.baseOf.withPower q).coeff = 1 := by
    cases factor <;> first | rfl | cases hsum
  have hkind : (factor.baseOf.withPower q).isFactor = true ∧
      (factor.baseOf.withPower q).group ≠ .radical := by
    cases factor <;> simp only [isAtomSum, isSum, Bool.false_and, Bool.false_eq_true] at hsum <;>
      simp [isFactor_iff, baseOf, withPower, withCoeff, isNumber, group, isExpandedSum, isSum,
        degreePower, hne]
  refine ⟨_, raiseBase_neg hbase hp, .factor ⟨Canonical.withPower_baseOf hfactor.canonical hsum hp,
    hkind.1, hcoeff, hkind.2⟩ (multiplicativeKey_baseOf_withPower hsum hneg hp) ?_⟩
  rw [Canonical.linear_exponent_of_isPowered (isPowered_of_isAtomSum hatom), hpower]

/-! ## Factors that unite -/

theorem multiplicativeKey_ne_exponential (hsum : a.isAtomSum = true) (hneg : a.degreePower < 0)
    (base exponent : Expr) :
    a.multiplicativeKey ≠ (Expr.exponential c base exponent).multiplicativeKey := by
  intro hkey
  rw [multiplicativeKey_exponential] at hkey
  split_ifs at hkey
  · obtain ⟨key, hkey'⟩ := Canonical.multiplicativeKey_of_isPowered
      (isPowered_of_isAtomSum hsum)
    exact absurd (hkey'.symm.trans hkey) (by simp)
  · exact multiplicativeKey_ne_signature hsum hneg base hkey

theorem Reduce.IsLoose.linear_exponential
    (h : IsLoose (rooted mode hasRoots) (.exponential c base exponent))
    (hconstant : constantTerm exponent = 0) : exponent.linear constantMark = 0 := by
  have hcanonical : Canonical (.rooted mode hasRoots) (.exponential c base exponent) := h.canonical
  rw [← hconstant]
  cases hcanonical with
  | constantBase _ _ _ _ hexponent hnumber | plainBase _ _ _ _ hexponent hnumber =>
      exact (constantTerm_eq_linear hexponent hnumber).symm

/-- The slot of a root of a sum has roots of that sum only. -/
theorem isRootSum_of_key (hold : IsLoose (rooted mode hasRoots) old)
    (hfactor : IsLoose (rooted mode hasRoots) factor)
    (hkey : old.multiplicativeKey = factor.multiplicativeKey) (hroot : old.isRootSum = true) :
    factor.isRootSum = true := by
  have hbase := hold.signature_baseOf hfactor hkey
  have hsum := isExpandedSum_baseOf (isRootSum_iff.mp hroot).1
  cases hfactor.isSteady with
  | radical => exact absurd rfl hfactor.group
  | imaginary =>
      obtain ⟨coeff, rfl⟩ := hold.canonical.exists_eq_imaginary hold.isFactor hkey
      cases hroot
  | atom hatom =>
      rw [(hatom.of_signature hbase.symm).isExpandedSum] at hsum
      cases hsum
  | bearer hbearer =>
      rcases hbearer.of_signature hbase.symm with ⟨-, hnone⟩ | ⟨_, hvalue, -⟩
      · rw [slots_baseOf (isRootSum_iff.mp hroot).1] at hnone
        exact absurd (hold.canonical.hasRoots_termsKey hroot) hnone
      · rw [hvalue] at hsum
        cases hsum
  | inverse hsum' hneg =>
      rw [multiplicativeKey_of_isRootSum hroot] at hkey
      exact absurd hkey.symm (multiplicativeKey_ne_signature hsum' hneg _)
  | root hroot' => exact hroot'

/-- Factors in one slot bear the sum of their exponents, unless they are roots of a sum. -/
theorem bears_add (hold : IsLoose (rooted mode hasRoots) old)
    (hfactor : IsLoose (rooted mode hasRoots) factor)
    (hkey : old.multiplicativeKey = factor.multiplicativeKey)
    (hne : factor.multiplicativeKey ≠ imaginaryKey mode) (hroot : factor.isRootSum = false) :
    Bears mode hasRoots old (old.exponent.linear + factor.exponent.linear) := by
  have hbase := hold.signature_baseOf hfactor hkey
  -- factors in one slot have one base, so both are of the same kind
  cases hold.isSteady with
  | radical => exact absurd rfl hold.group
  | imaginary => exact absurd hkey.symm hne
  | atom hatom => exact bears_of_isAtom hold hatom _
  | @bearer coeff base exponent hbearer hconstant =>
      obtain rfl : coeff = 1 := hold.coeff
      cases hfactor.isSteady with
      | radical => exact absurd rfl hfactor.group
      | imaginary => exact absurd rfl hne
      | atom hatom => exact absurd (hatom.of_signature hbase.symm) hbearer.not_isAtom
      | inverse hsum hneg => exact absurd hkey.symm (multiplicativeKey_ne_exponential hsum hneg _ _)
      | bearer _ hconstant' =>
          refine bears_of_isBearer hold hbearer ?_
          have hzero := hold.linear_exponential hconstant
          have hzero' := hfactor.linear_exponential hconstant'
          exact (congrArg₂ (· + ·) hzero hzero').trans (add_zero 0)
      | root hsum => exact absurd (hsum.symm.trans hroot) (by decide)
  | root hsum =>
      exact absurd ((isRootSum_of_key hold hfactor hkey hsum).symm.trans hroot) (by decide)
  | inverse hsum hneg =>
      cases hfactor.isSteady with
      | radical => exact absurd rfl hfactor.group
      | imaginary => exact absurd rfl hne
      | atom hatom =>
          have hbasesum := (hatom.of_signature hbase.symm).isExpandedSum
          rw [isExpandedSum_baseOf hsum] at hbasesum
          cases hbasesum
      | root hsum' => exact absurd (hsum'.symm.trans hroot) (by decide)
      | bearer => exact absurd hkey (multiplicativeKey_ne_exponential hsum hneg _ _)
      | inverse hsum' hneg' =>
          rw [Canonical.linear_exponent_of_isPowered (isPowered_of_isAtomSum hsum),
            Canonical.linear_exponent_of_isPowered (isPowered_of_isAtomSum hsum'),
            ← Finsupp.single_add]
          exact bears_of_isAtomSum hold hsum hneg (add_neg hneg hneg')

theorem bears_nsmul (hfactor : IsLoose (rooted mode hasRoots) factor)
    (hne : factor.multiplicativeKey ≠ imaginaryKey mode) (hroot : factor.isRootSum = false)
    {n : Nat} (hn : 1 ≤ n) : Bears mode hasRoots factor (n • factor.exponent.linear) := by
  cases hfactor.isSteady with
  | root hsum => exact absurd (hsum.symm.trans hroot) (by decide)
  | radical => exact absurd rfl hfactor.group
  | imaginary => exact absurd rfl hne
  | atom hatom => exact bears_of_isAtom hfactor hatom _
  | @bearer coeff base exponent hbearer hconstant =>
      obtain rfl : coeff = 1 := hfactor.coeff
      refine bears_of_isBearer hfactor hbearer ?_
      have hzero := hfactor.linear_exponential hconstant
      exact (congrArg (n • ·) hzero).trans (smul_zero n)
  | inverse hsum hneg =>
      rw [Canonical.linear_exponent_of_isPowered (isPowered_of_isAtomSum hsum), Finsupp.smul_single,
        nsmul_eq_mul]
      exact bears_of_isAtomSum hfactor hsum hneg
        (mul_neg_of_pos_of_neg (by exact_mod_cast hn) hneg)

theorem unites_of_key (hold : IsLoose (rooted mode hasRoots) old)
    (hfactor : IsLoose (rooted mode hasRoots) factor)
    (hkey : old.multiplicativeKey = factor.multiplicativeKey)
    (hne : factor.multiplicativeKey ≠ imaginaryKey mode) (hroot : factor.isRootSum = false) :
    Unites (rooted mode hasRoots) mode old factor := by
  refine unites_of_raiseBase hold hfactor fun fuel sum hsum hlinear => ?_
  rw [hlinear, ← hkey]
  exact bears_add hold hfactor hkey hne hroot fuel sum hsum hlinear

/-! ## The imaginary unit -/

theorem read_imaginary (mode : Mode) : (rooted mode hasRoots).read
    (.single (.single (imaginaryKey mode) (.single constantMark 2)) 1) = -1 := by
  have hrest : Surd.rest (.single 0 1) = 0 := by
    ext q
    rw [Surd.rest_apply, Finsupp.single_apply]
    split_ifs <;> simp
  have hwhole : Surd.whole (.single 0 1) = -1 := by
    rw [Surd.whole, Finsupp.prod_single_index (by simp)]
    simp [Surd.radicand]
  rw [read_single, splitSurds_single, splitKey_of_surdOf (surdOf?_imaginaryKey mode),
    Finsupp.single_eq_same, Finsupp.smul_single, smul_eq_mul, mul_one_div, div_self two_ne_zero,
    ← zero_add ((0 : Key →₀ Key →₀ Rat), Finsupp.single 0 (1 : Rat)), Surd.value_single_add hrest,
    hwhole, neg_one_smul]
  exact congrArg Neg.neg (map_one Surd.value)

theorem unites_imaginary (mode : Mode) :
    Unites (rooted mode hasRoots) mode (.named mode.imaginary) (.named mode.imaginary) := by
  intro fuel
  have htwo : (1 : Rat) + 1 = ((2 : Int) : Rat) := by norm_num
  have hpower : imaginaryPower mode 2 = .number (-1) := rfl
  have hraise := raiseBase_imaginary mode (fuel + 2) (show (2 : Int) ≠ 0 by decide) (by decide)
  refine ⟨.number (-1), ?_, .number ?_⟩
  · rw [combinePowers.eq_def]
    simp only [Expr.named, Expr.exponent, degreePower, addExponents, bind, Except.bind, htwo,
      baseOf, withCoeff, withPower, hraise, Expr.coeff, hpower, scale_number, mul_one]
    rfl
  · have hlinear : (Expr.named mode.imaginary).exponent.linear = .single constantMark 1 :=
      linear_number 1
    rw [hlinear, ← Finsupp.single_add, one_add_one_eq_two, map_neg, map_one]
    exact read_imaginary mode

theorem joins_of_isLoose (hfactor : IsLoose (rooted mode hasRoots) factor)
    (hroot : factor.isRootSum = false) : Joins (rooted mode hasRoots) mode factor := by
  refine joins_of_unites hfactor fun old hold holdfactor hcoeff hkey => ?_
  have hloose := hfactor.of_multiplicativeKey hold holdfactor hcoeff hkey
  -- the unit does not bear the sum of two exponents: its square is a constant
  by_cases himaginary : factor.multiplicativeKey = imaginaryKey mode
  · obtain ⟨c, rfl⟩ := Canonical.exists_eq_imaginary hold holdfactor (hkey.trans himaginary)
    obtain ⟨c', rfl⟩ := Canonical.exists_eq_imaginary hfactor.canonical hfactor.isFactor himaginary
    obtain rfl : c = 1 := hcoeff
    obtain rfl : c' = 1 := hfactor.coeff
    exact ⟨unites_imaginary mode, unites_imaginary mode⟩
  · have holdroot : old.isRootSum = false := by
      by_contra hsum
      have hfactorroot := isRootSum_of_key hloose hfactor hkey (Bool.not_eq_false _ ▸ hsum)
      exact absurd (hfactorroot.symm.trans hroot) (by decide)
    exact ⟨unites_of_key hloose hfactor hkey himaginary hroot,
      unites_of_key hfactor hloose hkey.symm (fun heq => himaginary (hkey.symm.trans heq)) holdroot⟩

/-! ## Radicals -/

/-- The value of a product of roots. -/
noncomputable def rootValue (roots : List (Rat × Rat)) : Surd.Values (Key →₀ Key →₀ Rat) :=
  Surd.value (.single (0, Surd.exponents roots) 1)

theorem readSlots_radicals (mode : Mode) (roots : List (Rat × Rat)) :
    (rooted mode hasRoots).readSlots (keyed (roots.map radicalOf)) = rootValue roots := by
  induction roots with
  | nil => exact (map_one (rooted mode hasRoots).read).trans (map_one Surd.value).symm
  | cons root rest ih =>
      have hexponent : (radicalOf root).exponent.linear = .single constantMark root.2 :=
        linear_number _
      have hsurd : surdOf? mode (radicalOf root).multiplicativeKey =
          some (Surd.valuations root.1) := surdOf?_radical mode 1 root.1 root.2
      rw [List.map_cons, ← List.singleton_append, keyed_append, FormalReading.readSlots_append, ih,
        FormalReading.readSlots_keyed_singleton, read_single, splitSurds_single,
        splitKey_of_surdOf hsurd, hexponent,
        Finsupp.single_eq_same, rootValue, rootValue, ← map_mul,
        AddMonoidAlgebra.single_mul_single, Prod.mk_add_mk, zero_add, one_mul, Surd.exponents_cons]

theorem rootValue_of_sameExponents (hc : 0 < c) (h : SameExponents (formRoots c groups) roots) :
    rootValue roots = c • rootValue (rootsOfGroups groups) := by
  have hexponents : Surd.exponents roots =
      Surd.exponents (rootsOfGroups groups) + Surd.valuations c := by
    rw [← Surd.exponents_congr h, formRoots, Surd.exponents_cons, one_smul, add_comm]
  have hvalue := Surd.value_single_add (m := ((0 : Key →₀ Key →₀ Rat),
    Surd.exponents (rootsOfGroups groups))) (Surd.rest_valuations c)
  rwa [Prod.mk_add_mk, add_zero, ← hexponents, Surd.whole_valuations hc] at hvalue

theorem areSurds_rootsOfGroups (h : IsRootForm c groups) : AreSurds (rootsOfGroups groups) :=
  ⟨groups, h.withCoefficient one_pos, .refl _⟩

theorem canonical_radicals (mode : Mode) (h : IsRootForm c groups) :
    ∀ factor ∈ (rootsOfGroups groups).map radicalOf, Canonical (.rooted mode hasRoots) factor :=
  canonical_radicalOf (Discipline.rooted_hereditary mode hasRoots) (areSurds_rootsOfGroups h)
    fun root hroot => (isSmall_rootsOfGroups h root hroot).1

theorem splitRadicals_perm (hkey : ∀ slot ∈ slots, slot.1 = slot.2.multiplicativeKey)
    (hcoeff : ∀ slot ∈ slots, slot.2.coeff = 1) :
    slots.Perm ((splitRadicals slots).2 ++ keyed ((Slots.radicals slots).map radicalOf)) := by
  induction slots with
  | nil => exact .refl _
  | cons slot rest ih =>
      obtain ⟨key, child⟩ := slot
      rw [List.forall_mem_cons] at hkey hcoeff
      have hrest := (ih hkey.2 hcoeff.2).cons (key, child)
      by_cases hgroup : child.group = .radical
      · obtain ⟨root, rfl⟩ := eq_radicalOf hgroup hcoeff.1
        obtain rfl : key = (radicalOf root).multiplicativeKey := hkey.1
        exact hrest.trans List.perm_middle.symm
      · have hothers : (splitRadicals ((key, child) :: rest)).2 =
            (key, child) :: (splitRadicals rest).2 := by
          simp [splitRadicals, hgroup]
        rw [hothers, ← List.singleton_append, Slots.radicals_append,
          Slots.radicals_of_ne hgroup]
        exact hrest

theorem isTermPart_radicals (h : IsTermPart (rooted mode hasRoots) slots)
    (hform : IsRootForm c groups) : IsTermPart (rooted mode hasRoots)
      ((splitRadicals slots).2 ++ keyed ((rootsOfGroups groups).map radicalOf)) := by
  have hothers : IsTermPart (rooted mode hasRoots) (splitRadicals slots).2 :=
    h.sublist List.filter_sublist
  have hfresh : ∀ slot ∈ (splitRadicals slots).2,
      ∀ slot' ∈ keyed ((rootsOfGroups groups).map radicalOf), slot.1 ≠ slot'.1 := by
    intro slot hslot slot' hslot' heq
    have hgroup : slot.2.group ≠ .radical := by simpa using (List.mem_filter.mp hslot).2
    obtain ⟨_, hradical, rfl⟩ := List.mem_map.mp hslot'
    obtain ⟨root, -, rfl⟩ := List.mem_map.mp hradical
    have hkey : slot.2.multiplicativeKey = .cons (.rational root.1) constantMark := by
      rw [← hothers.part.key slot hslot, heq]
      exact multiplicativeKey_radicalOf root
    exact hgroup (group_of_multiplicativeKey (hothers.part.factor slot hslot) hkey)
  have hdistinct : Slots.Distinct
      ((splitRadicals slots).2 ++ keyed ((rootsOfGroups groups).map radicalOf)) := by
    rw [Slots.Distinct, List.map_append, List.nodup_append]
    refine ⟨hothers.part.distinct, hform.distinct, ?_⟩
    simpa only [List.forall_mem_map] using hfresh
  exact ⟨isProductPart_radicals hothers.part (radicals_of_others slots)
      (areSurds_rootsOfGroups hform) hdistinct,
    List.forall_mem_append.mpr ⟨hothers.canonical,
      List.forall_mem_map.mpr (canonical_radicals mode hform)⟩⟩

theorem formsTerm_insertRadical (fuel : Nat) (h : IsTermPart (rooted mode hasRoots) slots)
    {root : Rat × Rat} (hroot : IsSmooth root.1) :
    FormsTerm (rooted mode hasRoots)
      (insertRadical mode (fuel + 1) (.product 1 1 slots) (radicalOf root))
      ((rooted mode hasRoots).readSlots slots *
        (rooted mode hasRoots).readSlots (keyed [radicalOf root])) := by
  have hsurds : AreSurds (Slots.radicals slots) := h.part.radicals
  have hadded : (splitRadicals [((radicalOf root).multiplicativeKey, radicalOf root)]).1 =
      [root] := rfl
  obtain ⟨c, groups, hcombine, hform, hroots⟩ := exists_combineRadicals_smooth mode
    (List.forall_mem_append.mpr ⟨hsurds.isSmooth, List.forall_mem_singleton.mpr hroot⟩)
  have hpart := isTermPart_radicals h hform
  have hvalue : c • (rooted mode hasRoots).readSlots
      ((splitRadicals slots).2 ++ keyed ((rootsOfGroups groups).map radicalOf)) =
        (rooted mode hasRoots).readSlots slots *
          (rooted mode hasRoots).readSlots (keyed [radicalOf root]) := by
    rw [(rooted mode hasRoots).readSlots_perm (splitRadicals_perm h.part.key h.part.coeff),
      ← FormalReading.readSlots_append, List.append_assoc, ← keyed_append, ← List.map_singleton,
      ← List.map_append, FormalReading.readSlots_append, FormalReading.readSlots_append,
      readSlots_radicals, readSlots_radicals, rootValue_of_sameExponents hform.coefficient hroots,
      mul_smul_comm]
  have hplace := placeFactors_of_distinct hpart.part.distinct
  have hforms := formsTerm_collapse hform.coefficient.ne' hpart
  rw [hvalue] at hforms
  rw [Slots.radicals] at hcombine
  rw [insertRadical.eq_def]
  simp only [hadded, Expr.slots, hcombine, hplace, bind, Except.bind, Expr.withCoeff,
    Expr.withSlots, Expr.coeff, one_mul, List.nil_append]
  exact hforms

theorem AreSurds.exists_group {root : Rat × Rat} (h : AreSurds [root]) :
    ∃ group, IsRootForm 1 [group] ∧ radicalOf root = rootProduct 1 [group] := by
  obtain ⟨groups, hform, hperm⟩ := h
  obtain ⟨group, rfl⟩ : ∃ group, groups = [group] := by
    have hlength : (rootsOfGroups groups).length = 1 := hperm.length_eq.symm
    rwa [← List.length_eq_one_iff, ← List.length_map, ← rootsOfGroups]
  obtain rfl : root = ((group.2 : Rat), group.1) :=
    List.head_eq_of_cons_eq (List.perm_singleton.mp hperm)
  exact ⟨group, hform, rfl⟩

theorem rootValue_append (roots roots' : List (Rat × Rat)) :
    rootValue (roots ++ roots') = rootValue roots * rootValue roots' := by
  have hexponents : Surd.exponents (roots ++ roots') =
      Surd.exponents roots + Surd.exponents roots' := by
    simp [Surd.exponents]
  rw [rootValue, rootValue, rootValue, hexponents, ← map_mul, AddMonoidAlgebra.single_mul_single,
    Prod.mk_add_mk, zero_add, one_mul]

theorem Reduce.Represents.formsTerm {outcome : Except Fault Expr} (h : Represents roots outcome) :
    FormsTerm (rooted mode hasRoots) outcome (rootValue roots) := by
  obtain ⟨c, groups, rfl, hform, hroots⟩ := h
  have hpart : IsTermPart (rooted mode hasRoots) _ := isTermPart_radicals .nil hform
  have hforms := formsTerm_collapse hform.coefficient.ne' hpart
  rw [show (splitRadicals []).2 = [] from rfl, List.nil_append, collapse_radicals hform,
    readSlots_radicals, ← rootValue_of_sameExponents hform.coefficient hroots] at hforms
  exact hforms

theorem rootValue_group (group : Rat × Nat) :
    rootValue (formRoots 1 [group]) =
      (rooted mode hasRoots).readSlots (keyed [rootProduct 1 [group]]) := by
  have hone : SameExponents (formRoots 1 [group]) (formRoots 1 [group]) := fun _ _ => rfl
  rw [rootValue_of_sameExponents one_pos hone, one_smul, ← readSlots_radicals mode]
  rfl

theorem formsTerm_multiplyContent_radicals (fuel : Nat) (hmode : mode.numeric = false)
    {root root' : Rat × Rat} (h : AreSurds [root]) (h' : AreSurds [root']) :
    FormsTerm (rooted mode hasRoots)
      (multiplyContent mode (fuel + 6) (radicalOf root) (radicalOf root'))
      ((rooted mode hasRoots).readSlots (keyed [radicalOf root]) *
        (rooted mode hasRoots).readSlots (keyed [radicalOf root'])) := by
  obtain ⟨group, hform, hproduct⟩ := h.exists_group
  obtain ⟨group', hform', hproduct'⟩ := h'.exists_group
  rw [hproduct, hproduct', ← rootValue_group, ← rootValue_group, ← rootValue_append]
  exact (represents_multiplyContent_radicals hmode hform hform').formsTerm

theorem Canonical.areSurds_radicalOf {root : Rat × Rat}
    (h : Canonical (.rooted mode hasRoots) (radicalOf root)) : AreSurds [root] := by
  cases h with
  | radical _ _ hradicals => exact hradicals

theorem joins_radical (hmode : mode.numeric = false) {root : Rat × Rat}
    (h : Canonical (.rooted mode hasRoots) (radicalOf root)) :
    Joins (rooted mode hasRoots) mode (radicalOf root) := by
  intro fuel slots a b hslots hne hab
  rcases slots with _ | ⟨slot, _ | ⟨second, rest⟩⟩
  · exact absurd rfl hne
  · have hmem : slot ∈ [slot] := List.mem_cons_self
    have hslot := hslots.canonical slot hmem
    have hfactor := hslots.part.factor slot hmem
    have hcoeff := hslots.part.coeff slot hmem
    rw [← hslots.keyed_snd hmem, collapse_keyed] at hab
    rw [← hslots.keyed_snd hmem]
    by_cases hgroup : slot.2.group = .radical
    · obtain ⟨other, hother⟩ := eq_radicalOf hgroup hcoeff
      rw [hother] at hab hslot ⊢
      rcases hab with ⟨rfl, rfl⟩ | ⟨rfl, rfl⟩
      · exact formsTerm_multiplyContent_radicals fuel hmode hslot.areSurds_radicalOf
          h.areSurds_radicalOf
      · exact (formsTerm_multiplyContent_radicals fuel hmode h.areSurds_radicalOf
          hslot.areSurds_radicalOf).comm
    · have hfresh : ∀ slot' ∈ keyed [radicalOf root], slot'.1 ≠ slot.2.multiplicativeKey :=
        List.forall_mem_singleton.mpr fun hkey =>
          hgroup (group_of_multiplicativeKey hfactor (hkey.symm.trans rfl))
      refine (formsTerm_multiplyContent_fresh (fuel + 4) (.singleton h rfl rfl) (by simp [keyed])
        ⟨hslot, hfactor, hcoeff, hgroup⟩ hfresh ?_).comm
      rw [collapse_keyed]
      exact hab.symm
  · -- all radicals of the product are recombined with the new one
    have hinsert := formsTerm_insertRadical (fuel + 3) hslots
      (h.areSurds_radicalOf.isSmooth root List.mem_cons_self)
    rw [radicalOf, ← insertFactor_radical hslots.part, ← radicalOf] at hinsert
    obtain ⟨hleft, hright⟩ := multiplyContent_insert mode (fuel + 5) 1
      (slot :: second :: rest) (show (radicalOf root).isFactor = true from rfl)
    rcases hab with ⟨rfl, rfl⟩ | ⟨rfl, rfl⟩
    · exact hleft ▸ hinsert
    · exact hright ▸ hinsert

/-- A steady factor that is no root of a sum joins all terms. -/
theorem Canonical.joins (hmode : mode.numeric = false)
    (h : Canonical (.rooted mode hasRoots) factor) (hfactor : factor.isFactor = true)
    (hcoeff : factor.coeff = 1) (hroot : factor.isRootSum = false) :
    Joins (rooted mode hasRoots) mode factor := by
  by_cases hgroup : factor.group = .radical
  · obtain ⟨root, rfl⟩ := eq_radicalOf hgroup hcoeff
    exact joins_radical hmode h
  · exact joins_of_isLoose ⟨h, hfactor, hcoeff, hgroup⟩ hroot

end ExactAlgebra
