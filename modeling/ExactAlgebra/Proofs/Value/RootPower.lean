import ExactAlgebra.Proofs.Depth.Operations
import ExactAlgebra.Proofs.Value.RootTerm

/-!
# Powers of roots

Products and powers of terms of roots multiply their powers to the common denominator of the
exponents, whatever they regroup.  A rational power of a constant is a term of roots, so its
power to the denominator is the integral power of the constant.
-/

namespace ExactAlgebra

open ExactAlgebra.Expr Reduce

variable {mode : Mode} {n fuel : Nat} {c value value' : Rat} {a b node factor : Expr}
  {slots : Slots}

/-! ## Products of terms of roots -/

/-- At this amount of fuel, products and powers of roots multiply the powers. -/
structure MultipliesRoots (mode : Mode) (n fuel : Nat) : Prop where
  combineFactors : ∀ {a b value value'}, HasPower mode n a value → HasPower mode n b value' →
    GivesPower mode n (combineFactors mode fuel a b) (value * value')
  multiplyContent : ∀ {a b value value'}, HasPower mode n a value → HasPower mode n b value' →
    a.coeff = 1 → b.coeff = 1 → a.isNumber = false → b.isNumber = false →
    GivesPower mode n (multiplyContent mode fuel a b) (value * value')
  insertFactor : ∀ {total factor value}, HasPower mode n total value → total.group = .product →
    IsRoot mode n factor → Canonical .free factor → factor.coeff = 1 →
    GivesPower mode n (insertFactor mode fuel total factor) (value * factor.rootPower n)
  insertRadical : ∀ {total factor value}, HasPower mode n total value → total.group = .product →
    IsRoot mode n factor → Canonical .free factor → factor.coeff = 1 → factor.group = .radical →
    GivesPower mode n (insertRadical mode fuel total factor) (value * factor.rootPower n)
  combinePowers : ∀ {a b}, IsRoot mode n a → IsRoot mode n b → Canonical .free a →
    a.coeff = 1 → b.coeff = 1 → a.multiplicativeKey = b.multiplicativeKey →
    GivesPower mode n (combinePowers mode fuel a b) (a.rootPower n * b.rootPower n)
  raiseBase : ∀ {base p}, base ≠ 0 → IsFraction n p →
    GivesPower mode n (raiseBase mode fuel (.number base) (.rational p)) (base ^ multiple n p)
  numberPower : ∀ {base p}, base ≠ 0 → IsFraction n p →
    GivesPower mode n (numberPower mode fuel base p) (base ^ multiple n p)
  buildProduct : ∀ {form roots}, IsForm mode form roots → (roots.map Prod.fst).Nodup →
    (∀ factor ∈ form.factors ++ form.extras, IsRoot mode n factor ∧ factor.coeff = 1) →
    GivesPower mode n (buildProduct mode fuel form.coefficient form.factors form.extras)
      (form.coefficient ^ n * powerValue n (rootsOf (form.factors ++ form.extras)))

theorem multipliesRoots_zero : MultipliesRoots mode n 0 := by
  constructor <;> intros <;> exact .error _

theorem givesPower_combineFactors (hn : n ≠ 0) (ih : MultipliesRoots mode n fuel)
    (ha : HasPower mode n a value) (hb : HasPower mode n b value') :
    GivesPower mode n (combineFactors mode (fuel + 1) a b) (value * value') := by
  cases hanumber : a.isNumber with
  | true =>
      obtain ⟨v, rfl⟩ := exists_eq_number hanumber
      rw [(combineFactors_number mode fuel v b).2, ← ha.power, rootPower_number]
      exact .ok (hb.scale hn v)
  | false =>
      cases hbnumber : b.isNumber with
      | true =>
          obtain ⟨v, rfl⟩ := exists_eq_number hbnumber
          rw [(combineFactors_number mode fuel v a).1, ← hb.power, rootPower_number, mul_comm]
          exact .ok (ha.scale hn v)
      | false =>
          obtain ⟨x, hx, rfl⟩ := ha.withCoeff_one hanumber
          obtain ⟨y, hy, rfl⟩ := hb.withCoeff_one hbnumber
          have hvalue : a.coeff ^ n * x * (b.coeff ^ n * y) = (a.coeff * b.coeff) ^ n * (x * y) := by
            rw [mul_pow]
            ring
          have hcontent : GivesPower mode n (if a.group.rank < b.group.rank then
              multiplyContent mode fuel (b.withCoeff 1) (a.withCoeff 1)
              else multiplyContent mode fuel (a.withCoeff 1) (b.withCoeff 1)) (x * y) := by
            split_ifs
            · rw [mul_comm x y]
              exact ih.multiplyContent hy hx (coeff_withCoeff _ _) (coeff_withCoeff _ _)
                ((isNumber_withCoeff _ _).trans hbnumber) ((isNumber_withCoeff _ _).trans hanumber)
            · exact ih.multiplyContent hx hy (coeff_withCoeff _ _) (coeff_withCoeff _ _)
                ((isNumber_withCoeff _ _).trans hanumber) ((isNumber_withCoeff _ _).trans hbnumber)
          rw [combineFactors_eq_ite mode fuel hanumber hbnumber, hvalue]
          exact hcontent.map_scale hn _

/-- The pair of two roots with different keys. -/
theorem hasPower_pairFactors (ha : IsRoot mode n a) (hb : IsRoot mode n b)
    (hacanonical : Canonical .free a) (hbcanonical : Canonical .free b) (hacoeff : a.coeff = 1)
    (hbcoeff : b.coeff = 1) (hkey : a.multiplicativeKey ≠ b.multiplicativeKey)
    (hgroup : ¬ (a.group = .radical ∧ b.group = .radical)) :
    HasPower mode n (pairFactors a b) (a.rootPower n * b.rootPower n) where
  canonical := canonical_pairFactors Discipline.free_hereditary hacanonical hbcanonical hacoeff
    hbcoeff ha.isFactor hb.isFactor hkey hgroup
  roots := by
    simpa [pairFactors, Slots.ofList_pair hkey, Expr.factors, Slots.children] using ⟨ha, hb⟩
  power := by
    rw [rootPower_of_isRoot ha hacoeff, rootPower_of_isRoot hb hbcoeff]
    simp [pairFactors, Slots.ofList_pair hkey, rootPower, Expr.factors, Slots.children, Expr.coeff]

/-- Two roots. -/
theorem givesPower_pair (hmode : mode.numeric = false) (ih : MultipliesRoots mode n fuel)
    (ha : IsRoot mode n a) (hb : IsRoot mode n b) (hacanonical : Canonical .free a)
    (hbcanonical : Canonical .free b) (hacoeff : a.coeff = 1) (hbcoeff : b.coeff = 1) :
    GivesPower mode n (multiplyContent mode (fuel + 1) a b)
      (a.rootPower n * b.rootPower n) := by
  by_cases hkey : a.multiplicativeKey = b.multiplicativeKey
  · have hstep : multiplyContent mode (fuel + 1) a b = combinePowers mode fuel a b := by
      rw [multiplyContent.eq_def]
      cases ha <;> cases hb <;>
        simp only [hkey, if_true, isExpandedSum, isSum, Bool.false_and, Bool.or_self,
          Bool.false_eq_true, if_false]
    rw [hstep]
    exact ih.combinePowers ha hb hacanonical hacoeff hbcoeff hkey
  · by_cases hgroup : a.group = .radical ∧ b.group = .radical
    · obtain ⟨root, rfl⟩ := eq_radicalOf hgroup.1 hacoeff
      obtain ⟨root', rfl⟩ := eq_radicalOf hgroup.2 hbcoeff
      have hstep : multiplyContent mode (fuel + 1) (radicalOf root) (radicalOf root') = (do
          let form ← combineRadicals mode [root, root']
          buildProduct mode fuel form.coefficient form.factors form.extras) := by
        rw [multiplyContent.eq_def]
        simp only [radicalOf] at hkey ⊢
        simp only [hkey, if_false, isExpandedSum, isSum, Bool.false_and, Bool.or_self,
          Bool.false_eq_true]
      have hroots : ∀ radical ∈ [root, root'], IsFactorable radical.1 ∧ IsFraction n radical.2 := by
        simpa using ⟨⟨isFactorable_of_canonical hacanonical, ha.isFraction⟩,
          isFactorable_of_canonical hbcanonical, hb.isFraction⟩
      obtain ⟨form, roots, hok, hform, hdistinct⟩ :=
        exists_isForm hmode fun radical hradical => (hroots radical hradical).1
      obtain ⟨hfactors, hvalue⟩ := combineRadicals_value hmode hroots hok
      rw [hstep, hok]
      refine (ih.buildProduct hform (hdistinct le_rfl) hfactors).congr ?_
      rw [hvalue, rootPower_of_isRoot ha hacoeff, rootPower_of_isRoot hb hbcoeff]
      simp [rootOf, radicalOf]
    · have hstep : multiplyContent mode (fuel + 1) a b = .ok (pairFactors a b) := by
        rw [multiplyContent.eq_def]
        cases ha <;> cases hb <;>
          simp_all [isExpandedSum, isSum, group]
      rw [hstep]
      exact .ok (hasPower_pairFactors ha hb hacanonical hbcanonical hacoeff hbcoeff hkey hgroup)

theorem givesPower_multiplyContent (hmode : mode.numeric = false)
    (ih : MultipliesRoots mode n fuel) (ha : HasPower mode n a value)
    (hb : HasPower mode n b value') (hacoeff : a.coeff = 1) (hbcoeff : b.coeff = 1)
    (hanumber : a.isNumber = false) (hbnumber : b.isNumber = false) :
    GivesPower mode n (multiplyContent mode (fuel + 1) a b) (value * value') := by
  by_cases hagroup : a.group = .product
  · by_cases hbgroup : b.group = .product
    · obtain ⟨c', slots', rfl, -, -, hslots', rfl⟩ := hb.product_cases hbgroup
      obtain rfl : c' = 1 := hbcoeff
      have hfold : GivesPower mode n ((Slots.children slots').foldlM
          (fun total factor => combineFactors mode fuel total factor) a)
          (value * ((Slots.children slots').map (rootPower n)).prod) := by
        refine .foldlM (fun total value htotal => List.forall_mem_map.mpr fun slot hslot => ?_) ha
        exact ih.combineFactors htotal
          ((hslots'.root slot hslot).hasPower (hslots'.canonical slot hslot))
      have hchildren : ∀ factor ∈ Slots.children slots', IsRoot mode n factor ∧ factor.coeff = 1 :=
        List.forall_mem_map.mpr fun slot hslot =>
          ⟨hslots'.root slot hslot, hslots'.part.coeff slot hslot⟩
      rw [prod_rootPower hchildren] at hfold
      obtain ⟨c, slots, rfl, -, -, -, -⟩ := ha.product_cases hagroup
      rw [multiplyContent.eq_def, one_pow, one_mul]
      exact hfold
    · have hroot := hb.isRoot hbnumber hbgroup
      have hinsert := ih.insertFactor ha hagroup hroot hb.canonical hbcoeff
      rw [hb.power] at hinsert
      obtain ⟨c, slots, rfl, -, -, -, -⟩ := ha.product_cases hagroup
      rwa [(multiplyContent_insert mode fuel c slots hroot.isFactor).1]
  · have hroot := ha.isRoot hanumber hagroup
    by_cases hbgroup : b.group = .product
    · have hinsert := ih.insertFactor hb hbgroup hroot ha.canonical hacoeff
      rw [ha.power, mul_comm] at hinsert
      obtain ⟨c, slots, rfl, -, -, -, -⟩ := hb.product_cases hbgroup
      rwa [(multiplyContent_insert mode fuel c slots hroot.isFactor).2]
    · have hpair := givesPower_pair hmode ih hroot (hb.isRoot hbnumber hbgroup) ha.canonical
        hb.canonical hacoeff hbcoeff
      rwa [ha.power, hb.power] at hpair

/-- A product of roots and one more root. -/
theorem givesPower_insertFactor (hn : n ≠ 0) (ih : MultipliesRoots mode n fuel)
    (htotal : HasPower mode n a value) (hproduct : a.group = .product)
    (hroot : IsRoot mode n factor) (hcanonical : Canonical .free factor)
    (hcoeff : factor.coeff = 1) :
    GivesPower mode n (insertFactor mode (fuel + 1) a factor)
      (value * factor.rootPower n) := by
  have hinsert := ih.insertRadical htotal hproduct hroot hcanonical hcoeff
  obtain ⟨c, slots, rfl, hc, htwo, hslots, rfl⟩ := htotal.product_cases hproduct
  have hsum := (isFactor_iff.mp hroot.isFactor).2.2
  rw [insertFactor.eq_def]
  dsimp only
  rw [if_neg (by rw [hsum]; exact Bool.false_ne_true)]
  split_ifs with hradical
  · exact hinsert (by simpa using (Bool.and_eq_true_iff.mp hradical).1)
  · cases hfind : Slots.find? factor.multiplicativeKey slots with
    | none =>
        have hnoradical : factor.group ≠ .radical := fun hgroup => hradical (by
          simp [hgroup, Expr.slots, hfind])
        simp only [Expr.slots, hfind, withSlots]
        have hpart := hslots.part.append hcoeff hroot.isFactor hnoradical rfl
          (Slots.find?_eq_none_iff.mp hfind)
        have hmore : AreRoots mode n (slots ++ [(factor.multiplicativeKey, factor)]) :=
          ⟨hpart, List.forall_mem_append.mpr
            ⟨hslots.canonical, List.forall_mem_singleton.mpr hcanonical⟩,
            List.forall_mem_append.mpr ⟨hslots.root, List.forall_mem_singleton.mpr hroot⟩⟩
        have hresult := hmore.collapse hn hc
        rw [collapse_two_le (by rw [List.length_append]; omega)] at hresult
        refine (GivesPower.ok hresult).congr ?_
        rw [rootPower_of_isRoot hroot hcoeff]
        simp [Slots.children, rootsOf, mul_assoc]
    | some old =>
        have hmem := Slots.mem_of_find? hfind
        have hkey : factor.multiplicativeKey = old.multiplicativeKey := hslots.part.key _ hmem
        have hold : old.coeff = 1 := hslots.part.coeff _ hmem
        have hrest := (hslots.sublist (Slots.erase_sublist factor.multiplicativeKey slots)).collapse
          hn hc
        simp only [Expr.slots, hfind, withSlots]
        refine (ih.combinePowers (hslots.root _ hmem) hroot (hslots.canonical _ hmem) hold hcoeff
          hkey.symm).bind fun merged hmerged => (ih.combineFactors hrest hmerged).congr ?_
        have hperm := (Slots.perm_cons_erase hslots.part.distinct hmem).map Prod.snd
        rw [rootPower_of_isRoot (hslots.root _ hmem) hold, Slots.children, Slots.children,
          rootsOf, rootsOf, powerValue_perm (hperm.map rootOf)]
        simp only [List.map_cons, powerValue_cons, powerValue_nil]
        ring

/-- The radicals among some slots of roots, and the others. -/
theorem powerValue_splitRadicals (slots : Slots) :
    powerValue n (rootsOf (Slots.children slots)) = powerValue n (splitRadicals slots).1 *
      powerValue n (rootsOf (Slots.children (splitRadicals slots).2)) := by
  induction slots with
  | nil => simp [splitRadicals, Slots.children, rootsOf]
  | cons slot rest ih =>
      obtain ⟨key, child⟩ := slot
      simp only [splitRadicals, Slots.children, rootsOf, List.map_cons, powerValue_cons] at ih ⊢
      rw [ih]
      cases child <;> simp [group, rootOf, mul_assoc, mul_left_comm]

theorem AreRoots.isFraction_of_mem (h : AreRoots mode n slots) :
    ∀ radical ∈ (splitRadicals slots).1, IsFraction n radical.2 := by
  intro radical hradical
  obtain ⟨⟨key, child⟩, hslot, hsome⟩ := List.mem_filterMap.mp hradical
  have hroot : IsRoot mode n child := h.root _ hslot
  cases hroot with
  | radical hfraction =>
      cases hsome
      exact hfraction
  | imaginary => cases hsome

/-- Roots that are no radicals, and some of the radicals of a canonical form. -/
theorem AreRoots.placed (h : AreRoots mode n slots) {form : RadicalForm}
    {roots : List (Rat × Rat)} (hform : IsForm mode form roots)
    (hfactors : ∀ factor ∈ form.factors, IsRoot mode n factor) {placed : List Expr}
    (hplaced : placed.Sublist form.factors)
    (hdistinct : Slots.Distinct ((splitRadicals slots).2 ++ keyed placed)) :
    AreRoots mode n ((splitRadicals slots).2 ++ keyed placed) := by
  have hothers : AreRoots mode n (splitRadicals slots).2 := h.sublist List.filter_sublist
  have hnodes := canonical_radicalOf Discipline.free_hereditary trivial hform.radical
  rw [hform.factors] at hplaced hfactors
  obtain ⟨roots', -, rfl⟩ := List.sublist_map_iff.mp hplaced
  exact
    { part := isProductPart_radicals hothers.part (radicals_of_others slots) trivial hdistinct
      canonical := List.forall_mem_append.mpr ⟨hothers.canonical, List.forall_mem_map.mpr
        fun factor hfactor => hnodes factor (hplaced.subset hfactor)⟩
      root := List.forall_mem_append.mpr ⟨hothers.root, List.forall_mem_map.mpr
        fun factor hfactor => hfactors factor (hplaced.subset hfactor)⟩ }

/-- The factors of a canonical form that are still to be multiplied in. -/
theorem givesPower_rest (ih : MultipliesRoots mode n fuel) {form : RadicalForm}
    {roots : List (Rat × Rat)} (hform : IsForm mode form roots)
    (hfactors : ∀ factor ∈ form.factors ++ form.extras, IsRoot mode n factor ∧ factor.coeff = 1)
    {taken : List Expr} (htaken : taken.Sublist form.factors) (h : HasPower mode n a value) :
    GivesPower mode n ((form.extras ++ taken).foldlM
      (fun result extra => combineFactors mode fuel result extra) a)
        (value * powerValue n (rootsOf (form.extras ++ taken))) := by
  have hnodes := canonical_radicalOf Discipline.free_hereditary trivial hform.radical
  rw [← hform.factors] at hnodes
  have hrest : ∀ factor ∈ form.extras ++ taken,
      (IsRoot mode n factor ∧ factor.coeff = 1) ∧ Canonical .free factor := by
    refine List.forall_mem_append.mpr ⟨fun factor hfactor => ?_, fun factor hfactor => ?_⟩
    · exact ⟨hfactors factor (List.mem_append_right _ hfactor),
        hform.extras factor hfactor ▸ canonical_imaginary (Discipline.free_admissible mode)⟩
    · have hmem := htaken.subset hfactor
      exact ⟨hfactors factor (List.mem_append_left _ hmem), hnodes factor hmem⟩
  rw [← prod_rootPower fun factor hfactor => (hrest factor hfactor).1]
  exact .foldlM (fun total value htotal factor hfactor => ih.combineFactors htotal
    ((hrest factor hfactor).1.1.hasPower (hrest factor hfactor).2)) h

/-- A product of roots and one more radical, recombined with the others. -/
theorem givesPower_insertRadical (hn : n ≠ 0) (hmode : mode.numeric = false)
    (ih : MultipliesRoots mode n fuel) (htotal : HasPower mode n a value)
    (hproduct : a.group = .product) (hroot : IsRoot mode n factor)
    (hcanonical : Canonical .free factor) (hcoeff : factor.coeff = 1)
    (hgroup : factor.group = .radical) :
    GivesPower mode n (insertRadical mode (fuel + 1) a factor)
      (value * factor.rootPower n) := by
  obtain ⟨c, slots, rfl, hc, -, hslots, rfl⟩ := htotal.product_cases hproduct
  obtain ⟨root, rfl⟩ := eq_radicalOf hgroup hcoeff
  have hadded : (splitRadicals [((radicalOf root).multiplicativeKey, radicalOf root)]).1 =
    [root] := rfl
  have hradicals : ∀ radical ∈ (splitRadicals slots).1 ++ [root],
      IsFactorable radical.1 ∧ IsFraction n radical.2 :=
    List.forall_mem_append.mpr
      ⟨fun radical hradical => ⟨isFactorable_of_mem_radicals hslots.canonical radical hradical,
        hslots.isFraction_of_mem radical hradical⟩,
      List.forall_mem_singleton.mpr ⟨isFactorable_of_canonical hcanonical, hroot.isFraction⟩⟩
  obtain ⟨form, roots, hok, hform, -⟩ :=
    exists_isForm hmode fun radical hradical => (hradicals radical hradical).1
  obtain ⟨hfactors, hvalue⟩ := combineRadicals_value hmode hradicals hok
  obtain ⟨placed, taken, hplace, hplaced, htaken, hperm, hdistinct⟩ :=
    placeFactors_spec (splitRadicals slots).2 form.factors
  have hslots' := hslots.placed hform
    (fun factor hfactor => (hfactors factor (List.mem_append_left _ hfactor)).1) hplaced
    (hdistinct (hslots.part.distinct.sublist List.filter_sublist))
  have hstart := hslots'.collapse hn (mul_ne_zero hc hform.coefficient)
  rw [insertRadical.eq_def]
  simp only [Expr.slots, hadded, hok, bind, Except.bind, hplace, Expr.coeff, Expr.withCoeff,
    withSlots]
  refine (givesPower_rest ih hform hfactors htaken hstart).congr ?_
  have hchildren : Slots.children ((splitRadicals slots).2 ++ keyed placed) =
      Slots.children (splitRadicals slots).2 ++ placed := by
    simp [Slots.children, keyed, Function.comp_def]
  have hfound : powerValue n (rootsOf form.factors) =
      powerValue n (rootsOf placed) * powerValue n (rootsOf taken) := by
    rw [rootsOf, ← powerValue_perm (hperm.map rootOf), List.map_append, powerValue_append]
    rfl
  rw [powerValue_splitRadicals slots, rootPower_of_isRoot hroot hcoeff, hchildren]
  simp only [rootsOf, List.map_append, powerValue_append] at hvalue hfound ⊢
  calc (c * form.coefficient) ^ n * (powerValue n ((splitRadicals slots).2.children.map rootOf) *
          powerValue n (placed.map rootOf)) *
        (powerValue n (form.extras.map rootOf) * powerValue n (taken.map rootOf))
      = c ^ n * powerValue n ((splitRadicals slots).2.children.map rootOf) *
        (form.coefficient ^ n * (powerValue n (form.factors.map rootOf) *
          powerValue n (form.extras.map rootOf))) := by
        rw [hfound, mul_pow]
        ring
    _ = _ := by
        rw [hvalue]
        simp only [radicalOf, rootOf]
        ring

/-! ## Powers -/

theorem multiplicativeKey_radical_ne {p : Rat} {c' base : Rat} {name : String} {power : Rat} :
    (Expr.radical c' base p).multiplicativeKey ≠ (Expr.symbol c name power).multiplicativeKey := by
  simp [multiplicativeKey, isAtomSum, isSum, baseKey, withPower, content, constantMark, Key.tuple]

/-- An integral power of the imaginary unit. -/
theorem raiseBase_imaginary (mode : Mode) (fuel : Nat) {k : Int} (hzero : k ≠ 0) (hone : k ≠ 1) :
    raiseBase mode (fuel + 1) (.symbol 1 mode.imaginary 1) (.rational k) =
      .ok (imaginaryPower mode k) := by
  have hzero' : (k : Rat) ≠ 0 := by exact_mod_cast hzero
  have hone' : (k : Rat) ≠ 1 := by exact_mod_cast hone
  have hinteger : Ratio.isInteger (k : Rat) = true := by simp [Ratio.isInteger]
  rw [raiseBase.eq_def]
  simp only [asNode, asExponent, hzero', hone', if_false, hinteger, beq_self_eq_true,
    Bool.and_self, if_true, Rat.num_intCast]

/-- Two roots of one base. -/
theorem givesPower_combinePowers (hn : n ≠ 0) (ih : MultipliesRoots mode n fuel)
    (ha : IsRoot mode n a) (hb : IsRoot mode n b) (hcanonical : Canonical .free a)
    (hacoeff : a.coeff = 1) (hbcoeff : b.coeff = 1)
    (hkey : a.multiplicativeKey = b.multiplicativeKey) :
    GivesPower mode n (combinePowers mode (fuel + 1) a b)
      (a.rootPower n * b.rootPower n) := by
  rw [rootPower_of_isRoot ha hacoeff, rootPower_of_isRoot hb hbcoeff, combinePowers.eq_def]
  simp only [hacoeff, hbcoeff, mul_one]
  cases ha with
  | @radical c base p hp =>
      cases hb with
      | imaginary => exact absurd hkey multiplicativeKey_radical_ne
      | @radical c' base' q hq =>
          obtain rfl : base = base' := by
            simpa [multiplicativeKey, isAtomSum, isSum, baseKey] using hkey
          have hbase : base ≠ 0 := by
            rcases isFactorable_of_canonical hcanonical with rfl | ⟨m, hm, rfl⟩
            · norm_num
            · exact_mod_cast (by omega : m ≠ 0)
          refine ((ih.raiseBase hbase (hp.add hq)).bind fun node hnode =>
            .ok (hnode.scale hn 1)).congr ?_
          rw [multiple_add hp, zpow_add₀ hbase]
          simp [rootOf]
  | imaginary hhalf =>
      cases hb with
      | radical => exact absurd hkey.symm multiplicativeKey_radical_ne
      | imaginary =>
          have hsquare : GivesPower mode n
              (Reduce.raiseBase mode fuel (.symbol 1 mode.imaginary 1) (.rational (1 + 1)))
              ((-1) ^ n) := by
            cases fuel with
            | zero => exact .error _
            | succ fuel =>
                have htwo : (1 : Rat) + 1 = (2 : Int) := by norm_num
                rw [htwo, raiseBase_imaginary mode fuel (by norm_num) (by norm_num)]
                exact .ok (hasPower_number mode n (-1))
          refine (hsquare.bind fun node hnode => .ok (hnode.scale hn 1)).congr ?_
          have hsum : multiple n (1 / 2) + multiple n (1 / 2) = n := by
            rw [← multiple_add hhalf, ← multiple_one n]
            norm_num
          simp only [rootOf, powerValue_cons, powerValue_nil, mul_one, one_pow, one_mul]
          rw [← zpow_add₀ (by norm_num), hsum, zpow_natCast]

theorem givesPower_raiseBase (ih : MultipliesRoots mode n fuel) {base p : Rat} (hbase : base ≠ 0)
    (hp : IsFraction n p) :
    GivesPower mode n (Reduce.raiseBase mode (fuel + 1) (.number base) (.rational p))
      (base ^ multiple n p) := by
  rw [raiseBase.eq_def]
  exact ih.numberPower hbase hp

/-- A product of radicals with distinct bases. -/
theorem productOf_eq_collapse {rules : Discipline} {factors : List Expr} (hc : c ≠ 0)
    (h : IsProductPart rules (keyed factors)) :
    productOf c factors = Reduce.collapse (.product c 1 (keyed factors)) := by
  match factors with
  | [] => rfl
  | [factor] =>
      have hmem : (factor.multiplicativeKey, factor) ∈ keyed [factor] := List.mem_cons_self
      exact (scale_factor hc (h.coeff _ hmem) (h.factor _ hmem)).symm
  | first :: second :: rest =>
      rw [collapse_two_le (by simp [keyed]), productOf_of_two_le (by simp) h.distinct]

theorem givesPower_buildProduct (hn : n ≠ 0) (ih : MultipliesRoots mode n fuel) {form : RadicalForm}
    {roots : List (Rat × Rat)} (hform : IsForm mode form roots)
    (hdistinct : (roots.map Prod.fst).Nodup)
    (hfactors : ∀ factor ∈ form.factors ++ form.extras, IsRoot mode n factor ∧ factor.coeff = 1) :
    GivesPower mode n
      (Reduce.buildProduct mode (fuel + 1) form.coefficient form.factors form.extras)
      (form.coefficient ^ n * powerValue n (rootsOf (form.factors ++ form.extras))) := by
  have hstart : HasPower mode n (productOf form.coefficient form.factors)
      (form.coefficient ^ n * powerValue n (rootsOf form.factors)) := by
    have hslots : Slots.Distinct (keyed form.factors) := by
      rw [hform.factors]
      exact distinct_radicals hdistinct
    have hplaced : AreRoots mode n (keyed form.factors) := (areRoots_nil mode n).placed hform
      (fun factor hfactor => (hfactors factor (List.mem_append_left _ hfactor)).1)
      (List.Sublist.refl _) hslots
    have hchildren : Slots.children (keyed form.factors) = form.factors := by
      simp [Slots.children, keyed, Function.comp_def]
    have hcollapse := hplaced.collapse hn hform.coefficient
    rwa [hchildren, ← productOf_eq_collapse hform.coefficient hplaced.part] at hcollapse
  have hrest := givesPower_rest ih hform hfactors (List.nil_sublist _) hstart
  rw [List.append_nil] at hrest
  rw [buildProduct.eq_def]
  refine hrest.congr ?_
  simp only [rootsOf, List.map_append, powerValue_append, mul_assoc]

theorem givesPower_numberPower (hn : n ≠ 0) (hmode : mode.numeric = false)
    (ih : MultipliesRoots mode n fuel) {base p : Rat} (hbase : base ≠ 0) (hp : IsFraction n p) :
    GivesPower mode n (Reduce.numberPower mode (fuel + 1) base p) (base ^ multiple n p) := by
  rw [numberPower.eq_def]
  dsimp only
  rw [if_neg hbase]
  simp only [hmode, Bool.false_eq_true, if_false]
  split_ifs with htrivial hinteger hneg hden
  · refine (GivesPower.ok (hasPower_number mode n 1)).congr ?_
    rcases htrivial with rfl | rfl
    · simp [multiple]
    · simp
  · have hnum : (p.num : Rat) = p := (Rat.den_eq_one_iff p).mp (by
      simpa [Ratio.isInteger] using hinteger)
    refine (GivesPower.ok (hasPower_number mode n _)).congr ?_
    have hmultiple : multiple n p = p.num * n :=
      multiple_of_eq (by push_cast; rw [hnum, mul_comm])
    rw [ratio_power_eq_zpow, hmultiple, zpow_mul, zpow_natCast]
  · have hvalue : base ^ multiple n p = (-1) ^ multiple n p * (-base) ^ multiple n p := by
      rw [← mul_zpow]
      norm_num
    refine (ih.numberPower (neg_ne_zero.mpr hbase) hp).bind fun magnitude hmagnitude => ?_
    obtain ⟨sign, extra, hok, -, hextra⟩ := negativeOnePower_cases hmode p
    obtain ⟨hroots, hsign⟩ := negativeOnePower_value hmode hp hok
    have hscaled := hmagnitude.scale hn sign
    simp only [hok, bind, Except.bind]
    cases hextra with
    | real =>
        refine (GivesPower.ok hscaled).congr ?_
        rw [hvalue, ← hsign]
        simp [rootsOf]
    | imaginary =>
        have hroot := hroots _ (List.mem_singleton_self _)
        refine (ih.combineFactors hscaled (hroot.1.hasPower
          (canonical_imaginary (Discipline.free_admissible mode)))).congr ?_
        rw [hvalue, ← hsign, rootPower_of_isRoot hroot.1 hroot.2]
        simp only [Option.toList_some, rootsOf, List.map_cons, List.map_nil]
        ring
    | root hradical =>
        have hroot := hroots _ (List.mem_singleton_self _)
        refine (ih.combineFactors hscaled (hroot.1.hasPower
          (.radical one_ne_zero hradical trivial))).congr ?_
        rw [hvalue, ← hsign, rootPower_of_isRoot hroot.1 hroot.2]
        simp only [Option.toList_some, rootsOf, List.map_cons, List.map_nil]
        ring
  · have hnum : (base.num : Rat) ≠ 0 := by exact_mod_cast Rat.num_ne_zero.mpr hbase
    have hden' : (base.den : Rat) ≠ 0 := by exact_mod_cast base.den_nz
    refine (ih.numberPower hnum hp).bind fun above habove =>
      (ih.numberPower hden' hp.neg).bind fun below hbelow =>
        (ih.combineFactors habove hbelow).congr ?_
    rw [multiple_neg hp, zpow_neg, ← div_eq_mul_inv, ← div_zpow, Rat.num_div_den]
  · have hroots : ∀ radical ∈ [(base, p)], IsFactorable radical.1 ∧ IsFraction n radical.2 :=
      List.forall_mem_singleton.mpr ⟨isFactorable_of_pos (not_not.mp hden)
        (lt_of_le_of_ne (not_lt.mp hneg) (Ne.symm hbase)), hp⟩
    obtain ⟨form, roots, hok, hform, hdistinct⟩ :=
      exists_isForm hmode fun radical hradical => (hroots radical hradical).1
    obtain ⟨hfactors, hvalue⟩ := combineRadicals_value hmode hroots hok
    rw [hok]
    refine (ih.buildProduct hform (hdistinct (by simp)) hfactors).congr ?_
    rw [hvalue, powerValue_cons, powerValue_nil, mul_one]

theorem multipliesRoots_succ (hn : n ≠ 0) (hmode : mode.numeric = false)
    (ih : MultipliesRoots mode n fuel) : MultipliesRoots mode n (fuel + 1) where
  combineFactors := givesPower_combineFactors hn ih
  multiplyContent := givesPower_multiplyContent hmode ih
  insertFactor := givesPower_insertFactor hn ih
  insertRadical := givesPower_insertRadical hn hmode ih
  combinePowers := givesPower_combinePowers hn ih
  raiseBase := givesPower_raiseBase ih
  numberPower := givesPower_numberPower hn hmode ih
  buildProduct := givesPower_buildProduct hn ih

/-- Products and powers of roots multiply the powers. -/
theorem multipliesRoots (hn : n ≠ 0) (hmode : mode.numeric = false) (fuel : Nat) :
    MultipliesRoots mode n fuel := by
  induction fuel with
  | zero => exact multipliesRoots_zero
  | succ fuel ih => exact multipliesRoots_succ hn hmode ih

/-! ## The power of a term of roots -/

theorem numberPower_natCast (mode : Mode) (fuel : Nat) (hn : n ≠ 0) (v : Rat) :
    numberPower mode (fuel + 1) v n = .ok (.number (v ^ n)) := by
  have hpower : numberPower mode (fuel + 1) v ((n : Int) : Rat) =
      .ok (.number (Ratio.power v n)) := numberPower_intCast (by omega)
  rwa [ratio_power_eq_zpow, zpow_natCast, Int.cast_natCast] at hpower

/-- The imaginary unit to an even power. -/
theorem imaginaryPower_even (mode : Mode) (k : Int) :
    imaginaryPower mode (2 * k) = .number ((-1) ^ k) := by
  unfold imaginaryPower
  rcases Int.even_or_odd k with heven | hodd
  · have hmod : 2 * k % 4 = 0 := by
      obtain ⟨j, rfl⟩ := heven
      omega
    rw [hmod, heven.neg_one_zpow]
    rfl
  · have hmod : 2 * k % 4 = 2 := by
      obtain ⟨j, rfl⟩ := hodd
      omega
    rw [hmod, hodd.neg_one_zpow]
    rfl

/-- A root, raised to the common denominator of the exponents, is a constant. -/
theorem raiseBase_root (mode : Mode) (fuel : Nat) (hn : n ≠ 0) (h : IsRoot mode n factor)
    (hcanonical : Canonical .free factor) :
    ∃ power, multiplyPowers mode (fuel + 2) factor.exponent (.rational n) = .ok power ∧
      raiseBase mode (fuel + 2) factor.baseOf power =
        .ok (.number (powerValue n [factor.rootOf])) := by
  cases h with
  | @radical c base p hp =>
      have hbase : base ≠ 0 := by
        rcases isFactorable_of_canonical hcanonical with rfl | ⟨m, hm, rfl⟩
        · norm_num
        · exact_mod_cast (by omega : m ≠ 0)
      have hpower : p * n = multiple n p := by rw [hp.cast_multiple, mul_comm]
      refine ⟨.rational (multiple n p), by rw [multiplyPowers.eq_def, ← hpower]; rfl, ?_⟩
      have hstep : raiseBase mode (fuel + 2) (.number base) (.rational (multiple n p)) =
          numberPower mode (fuel + 1) base (multiple n p) := by rw [raiseBase.eq_def]; rfl
      rw [baseOf, hstep, numberPower_intCast fun _ => hbase, ratio_power_eq_zpow, powerValue_cons,
        powerValue_nil, mul_one]
      rfl
  | @imaginary c hhalf =>
      have hdouble : 2 * multiple n (1 / 2) = n := by
        have hcast := hhalf.cast_multiple
        have hreal : (2 * multiple n (1 / 2) : Rat) = n := by
          rw [hcast]
          ring
        exact_mod_cast hreal
      have hpower : (1 : Rat) * n = ((2 * multiple n (1 / 2) : Int) : Rat) := by
        rw [hdouble, one_mul, Int.cast_natCast]
      refine ⟨.rational ((2 * multiple n (1 / 2) : Int) : Rat),
        by rw [multiplyPowers.eq_def, ← hpower]; rfl, ?_⟩
      have hbase : (Expr.symbol c mode.imaginary 1).baseOf = .symbol 1 mode.imaginary 1 := rfl
      rw [hbase, raiseBase_imaginary mode (fuel + 1) (by omega) (by omega), imaginaryPower_even,
        powerValue_cons, powerValue_nil, mul_one]
      rfl

/-- The coefficient is raised by itself. -/
theorem raiseTo_of_raised (hn : n ≠ 0) (hnumber : a.isNumber = false) {power : Exponent}
    (hpower : multiplyPowers mode (fuel + 1) a.exponent (.rational n) = .ok power)
    (hraise : raiseBase mode (fuel + 1) a.baseOf power = .ok (.number value)) :
    raiseTo mode (fuel + 2) a (.number n) = .ok (.number (a.coeff ^ n * value)) := by
  have hzero : (n : Rat) ≠ 0 := by exact_mod_cast hn
  have hstep : raiseTo mode (fuel + 2) a (.number n) =
      if a.coeff = 1 then .ok (.number value)
      else numberPower mode (fuel + 1) a.coeff n >>= fun power =>
        combineFactors mode (fuel + 1) power (.number value) := by
    rw [raiseTo.eq_def]
    cases a <;> simp only [isNumber, Bool.true_eq_false] at hnumber <;>
      (simp only [hzero, if_false, hpower, hraise, bind, Except.bind]; rfl)
  rw [hstep]
  split_ifs with hone
  · rw [hone, one_pow, one_mul]
  · rw [numberPower_natCast mode fuel hn]
    rw [← scale_number]
    exact (combineFactors_number mode fuel value (.number (a.coeff ^ n))).1

/-- Roots are raised one after the other. -/
theorem raiseFactors_roots (mode : Mode) (fuel : Nat) (hn : n ≠ 0) (c : Rat) {list : List Expr}
    (h : ∀ factor ∈ list, IsRoot mode n factor ∧ Canonical .free factor) :
    raiseFactors mode (fuel + 3) c list (.rational n) =
      .ok (.number (c * powerValue n (rootsOf list))) := by
  rw [raiseFactors.eq_def]
  induction list generalizing c with
  | nil => simp [rootsOf]; rfl
  | cons first rest ih =>
      obtain ⟨hfirst, hrest⟩ := List.forall_mem_cons.mp h
      obtain ⟨power, hpower, hraise⟩ := raiseBase_root mode fuel hn hfirst.1 hfirst.2
      simp only [List.foldlM_cons, hpower, hraise, bind, Except.bind,
        (combineFactors_number mode (fuel + 1) _ _).2, scale_number] at ih ⊢
      rw [ih _ hrest]
      simp only [rootsOf, List.map_cons, powerValue_cons, powerValue_nil, mul_one]
      ring_nf

/-- No root has an integral exponent. -/
theorem Expr.IsRoot.ne_one (h : IsRoot mode n factor) (hcanonical : Canonical .free factor) :
    n ≠ 1 := by
  rintro rfl
  cases h with
  | @radical c base p hp =>
      obtain ⟨k, hk⟩ := hp
      rw [Nat.cast_one, one_mul] at hk
      cases hcanonical with
      | radical _ hradical =>
          rcases hradical with ⟨-, -, hpos, hlt⟩ | ⟨-, -, -, -, hden⟩
          · rw [hk] at hpos hlt
            have hpos' : 0 < k := by exact_mod_cast hpos
            have hlt' : k < 1 := by exact_mod_cast hlt
            omega
          · rw [hk] at hden
            simp at hden
  | imaginary hhalf =>
      obtain ⟨k, hk⟩ := hhalf
      have htwice : (2 * k : Rat) = 1 := by
        rw [← hk]
        norm_num
      have htwice' : 2 * k = 1 := by exact_mod_cast htwice
      omega

/-- The power of a term of roots to the common denominator of the exponents is a constant. -/
theorem HasPower.raiseTo (h : HasPower mode n a value) (hn : n ≠ 0) (fuel : Nat) :
    Reduce.raiseTo mode (fuel + 6) a (.number n) = .ok (.number value) := by
  cases hnumber : a.isNumber with
  | true =>
      obtain ⟨v, rfl⟩ := exists_eq_number hnumber
      rw [← h.power, rootPower_number, raiseTo.eq_def]
      exact numberPower_natCast mode (fuel + 4) hn v
  | false =>
      by_cases hgroup : a.group = .product
      · obtain ⟨c, slots, rfl, hc, htwo, hslots, rfl⟩ := h.product_cases hgroup
        have hchildren : ∀ factor ∈ Slots.children slots,
            IsRoot mode n factor ∧ Canonical .free factor :=
          List.forall_mem_map.mpr fun slot hslot =>
            ⟨hslots.root slot hslot, hslots.canonical slot hslot⟩
        have hone : n ≠ 1 := by
          obtain ⟨slot, hslot⟩ := List.exists_mem_of_length_pos (by omega : 0 < slots.length)
          exact (hslots.root slot hslot).ne_one (hslots.canonical slot hslot)
        have hzero' : (n : Rat) ≠ 0 := by exact_mod_cast hn
        have hone' : (n : Rat) ≠ 1 := by exact_mod_cast hone
        have hpower : multiplyPowers mode (fuel + 5) (Expr.product c 1 slots).exponent
            (.rational n) = .ok (.rational n) := by
          rw [multiplyPowers.eq_def]
          simp only [Expr.exponent, degreePower, one_mul]
        refine raiseTo_of_raised hn rfl hpower ?_
        · have hbase : (Expr.product c 1 slots).baseOf = .product 1 1 slots := rfl
          rw [hbase, raiseBase.eq_def]
          simp only [asNode, asExponent, hzero', hone', if_false]
          rw [raiseFactors_roots mode (fuel + 1) hn 1 hchildren, one_mul]
      · have hroot := h.isRoot hnumber hgroup
        obtain ⟨power, hpower, hraise⟩ := raiseBase_root mode (fuel + 3) hn hroot h.canonical
        rw [raiseTo_of_raised hn hnumber hpower hraise, ← h.power, rootPower,
          factors_of_isFactor hroot.isFactor, List.map_singleton]

namespace Arithmetic

/-! ## Main result -/

/-- A rational power of a constant, raised to the denominator, is the integral power. -/
theorem exists_pow_root (hmode : mode.numeric = false) {b : Rat} (hb : b ≠ 0) (m : Int)
    (hn : 1 ≤ n) :
    ∃ root, pow mode (.number b) (.number (m / n)) = .ok root ∧
      pow mode root (.number n) = .ok (.number (b ^ m)) := by
  have hne : n ≠ 0 := by omega
  have hne' : (n : Rat) ≠ 0 := by exact_mod_cast hne
  have hdefined : ¬ IsUndefined (.number b) (.number (m / n : Rat)) := fun ⟨_, hzero, _⟩ =>
    hb (by simpa using hzero)
  obtain ⟨root, hpow, -, hlate⟩ :=
    exists_pow_late hmode (.number b) (.number (m / n : Rat)) hdefined
  obtain ⟨depth, hok⟩ := ((Filter.tendsto_add_atTop_nat 1).eventually hlate).exists
  have hmultiple : (n : Rat) * (m / n) = m := by field_simp
  have hroot : HasPower mode n root (b ^ m) := by
    rw [← multiple_of_eq hmultiple]
    refine (multipliesRoots hne hmode depth).numberPower hb ⟨m, hmultiple⟩ root ?_
    rwa [raiseTo.eq_def] at hok
  obtain ⟨fuel, hfuel⟩ := exists_pow_eq mode root (.number n)
  exact ⟨root, hpow, by rw [hfuel, hroot.raiseTo hne (fuel + 25), guarded_ok]⟩

/-- The root `(-12)^(2/4)` is `2*i*sqrt(3)`, and its fourth power is `144`. -/
theorem exists_pow_root_negative :
    let b : Rat := -12
    let m : Int := 2
    let n : Nat := 4
    Mode.exact.numeric = false ∧ b ≠ 0 ∧ 1 ≤ n ∧
      ∃ root, pow .exact (.number b) (.number (m / n)) = .ok root ∧
        pow .exact root (.number n) = .ok (.number (b ^ m)) := by
  intro b m n
  have hb : b ≠ 0 := by norm_num [b]
  have hn : 1 ≤ n := by norm_num [n]
  exact ⟨rfl, hb, hn, exists_pow_root rfl hb m hn⟩

end Arithmetic

end ExactAlgebra
