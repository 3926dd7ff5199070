import ExactAlgebra.Proofs.Canonical.Product

/-!
# Canonical expressions are closed under arithmetic

The functions behind products and powers call each other with less fuel.  `Closed`
says what each of them preserves at one amount of fuel, and one induction shows it
for all.
-/

namespace ExactAlgebra.Reduce

open ExactAlgebra.Expr

variable {mode : Mode} {rules : Discipline} {fuel : Nat} {a b node total factor base : Expr}
  {exponent : Expr} {power : Exponent}

/-- At this amount of fuel, the functions behind products and powers take canonical
arguments to canonical results. -/
structure Closed (rules : Discipline) (mode : Mode) (fuel : Nat) : Prop where
  combineFactors : ∀ {a b}, Canonical rules a → Canonical rules b →
    Yields rules (combineFactors mode fuel a b)
  multiplyContent : ∀ {a b}, Canonical rules a → Canonical rules b → a.coeff = 1 →
    b.coeff = 1 → a.isNumber = false → b.isNumber = false →
    Yields rules (multiplyContent mode fuel a b)
  insertFactor : ∀ {total factor}, Canonical rules total → total.group = .product →
    Canonical rules factor → factor.coeff = 1 → factor.isNumber = false →
    factor.group ≠ .product → Yields rules (insertFactor mode fuel total factor)
  insertRadical : ∀ {total factor}, Canonical rules total → total.group = .product →
    Canonical rules factor → Yields rules (insertRadical mode fuel total factor)
  distribute : ∀ {a b}, Canonical rules a → Canonical rules b →
    Yields rules (distribute mode fuel a b)
  combinePowers : ∀ {a b}, Canonical rules a → Canonical rules b →
    Yields rules (combinePowers mode fuel a b)
  multiplyPowers : ∀ {p q}, Canonical.IsExponent rules p → Canonical.IsExponent rules q →
    ∀ {r}, multiplyPowers mode fuel p q = .ok r → Canonical.IsExponent rules r
  raiseTo : ∀ {a b}, Canonical rules a → Canonical rules b →
    Yields rules (raiseTo mode fuel a b)
  raiseBase : ∀ {base power}, Canonical rules base → base.IsBase →
    Canonical.IsExponent rules power → Yields rules (raiseBase mode fuel base power)
  raiseFactors : ∀ {coeff factors power}, (∀ factor ∈ factors, Canonical rules factor) →
    Canonical.IsExponent rules power → Yields rules (raiseFactors mode fuel coeff factors power)
  expandPower : ∀ {base n}, Canonical rules base → Yields rules (expandPower mode fuel base n)
  numberPower : ∀ {b p}, Yields rules (numberPower mode fuel b p)
  exponential : ∀ {base exponent}, Canonical rules base → base.IsBase →
    Canonical rules exponent → exponent.isNumber = false →
    Yields rules (exponential mode fuel base exponent)
  buildProduct : ∀ {coefficient roots extras}, coefficient ≠ 0 →
    (∀ root ∈ roots, IsRadical root.1 root.2) → (roots.map Prod.fst).Nodup →
    rules.radicals roots → (∀ extra ∈ extras, Canonical rules extra) →
    Yields rules (buildProduct mode fuel coefficient (roots.map radicalOf) extras)

theorem closed_zero : Closed rules mode 0 := by
  constructor <;> intros
  case multiplyPowers h => simp [multiplyPowers] at h
  all_goals exact .error _

/-! ## Products -/

theorem combineFactors_of_isZero (h : (a.isZero || b.isZero) = true) :
    combineFactors mode (fuel + 1) a b = .ok (.number 0) := by
  rw [combineFactors.eq_def]
  simp only [h, if_true]

theorem scale_number (factor value : Rat) :
    scale factor (.number value) = .number (value * factor) := by
  by_cases hfactor : factor = 0
  · rw [hfactor, scale_zero, mul_zero]
  · rw [scale_of_not_isExpandedSum hfactor rfl]
    rfl

/-- Multiplication of two expressions that are not zero, in their order. -/
theorem combineFactors_cases (mode : Mode) (hazero : a.isZero = false)
    (hbzero : b.isZero = false) :
    ∃ x y, ((x = a ∧ y = b) ∨ (x = b ∧ y = a)) ∧ y.group.rank ≤ x.group.rank ∧
      ∀ fuel, combineFactors mode (fuel + 1) a b =
        if y.isNumber then .ok (scale y.coeff x)
        else do
          let content ← multiplyContent mode fuel (x.withCoeff 1) (y.withCoeff 1)
          return scale (x.coeff * y.coeff) content := by
  by_cases hnumbers : a.isNumber = true ∧ b.isNumber = true
  · obtain ⟨x, rfl⟩ : ∃ x, a = .number x := by cases a <;> simp_all [isNumber]
    obtain ⟨y, rfl⟩ : ∃ y, b = .number y := by cases b <;> simp_all [isNumber]
    refine ⟨.number x, .number y, .inl ⟨rfl, rfl⟩, le_rfl, fun fuel => ?_⟩
    rw [combineFactors, hazero, hbzero]
    simp [isNumber, scale_number, coeff]
  · have hnot : ∀ x y : Rat, a = .number x → b = .number y → False := by
      rintro x y rfl rfl
      exact hnumbers ⟨rfl, rfl⟩
    by_cases hrank : a.group.rank < b.group.rank
    · refine ⟨b, a, .inr ⟨rfl, rfl⟩, hrank.le, fun fuel => ?_⟩
      rw [combineFactors, hazero, hbzero]
      · simp only [Bool.or_self, Bool.false_eq_true, if_false, hrank, if_true]
        cases a <;> rfl
      · exact hnot
    · refine ⟨a, b, .inl ⟨rfl, rfl⟩, Nat.le_of_not_lt hrank, fun fuel => ?_⟩
      rw [combineFactors, hazero, hbzero]
      · simp only [Bool.or_self, Bool.false_eq_true, if_false, hrank]
        cases b <;> rfl
      · exact hnot

theorem isNumber_of_rank {x y : Expr} (hrank : y.group.rank ≤ x.group.rank)
    (hy : y.isNumber = false) : x.isNumber = false := by
  cases x <;> first | rfl | (cases y <;> simp_all [isNumber, group, Group.rank])

theorem yields_combineFactors (hrules : rules.Admissible mode) (ih : Closed rules mode fuel)
    (ha : Canonical rules a) (hb : Canonical rules b) :
    Yields rules (combineFactors mode (fuel + 1) a b) := by
  cases hzero : a.isZero || b.isZero with
  | true =>
      rw [combineFactors_of_isZero hzero]
      exact .ok (.number 0)
  | false =>
      obtain ⟨hazero, hbzero⟩ := Bool.or_eq_false_iff.mp hzero
      obtain ⟨x, y, hxy, hrank, hstep⟩ := combineFactors_cases mode hazero hbzero
      have hx : Canonical rules x := by rcases hxy with ⟨rfl, rfl⟩ | ⟨rfl, rfl⟩ <;> assumption
      have hy : Canonical rules y := by rcases hxy with ⟨rfl, rfl⟩ | ⟨rfl, rfl⟩ <;> assumption
      rw [hstep]
      split_ifs with hnumber
      · exact .ok (canonical_scale_any hrules.toHereditary _ hx)
      · rw [Bool.not_eq_true] at hnumber
        refine .bind fun content hcontent => .ok (canonical_scale_any hrules.toHereditary _ ?_)
        exact ih.multiplyContent hx.withCoeff_one hy.withCoeff_one (coeff_withCoeff _ _)
          (coeff_withCoeff _ _) (by simpa using isNumber_of_rank hrank hnumber)
          (by simpa using hnumber) content hcontent

theorem eq_product_of_group (h : node.group = .product) :
    ∃ coeff power factors, node = .product coeff power factors := by
  cases node <;> simp_all [group]

theorem children_canonical (h : Canonical rules node) :
    ∀ child ∈ node.slots.children, Canonical rules child :=
  List.forall_mem_map.mpr h.slots

theorem canonical_imaginary (hrules : rules.Admissible mode) :
    Canonical rules (.named mode.imaginary) :=
  .symbol one_ne_zero one_ne_zero hrules.imaginary

theorem isFactorable_of_canonical {coeff base power : Rat}
    (h : Canonical rules (.radical coeff base power)) : IsFactorable base := by
  cases h with
  | radical _ hradical => exact isFactorable_of_isRadical hradical

/-- The product of one or two powers. -/
theorem yields_combineRadicals (hrules : rules.Admissible mode) (hmode : mode.numeric = false)
    (ih : Closed rules mode fuel) {radicals : List (Rat × Rat)}
    (hradicals : ∀ radical ∈ radicals, IsFactorable radical.1) (hlength : radicals.length ≤ 2) :
    Yields rules (do
      let form ← combineRadicals mode radicals
      buildProduct mode fuel form.coefficient form.factors form.extras) := by
  obtain ⟨form, roots, hok, hform, hdistinct⟩ := exists_isForm hmode hradicals
  have hroots := hrules.form hradicals hok hform.factors
  simp only [hok, bind, Except.bind, hform.factors]
  refine ih.buildProduct hform.coefficient hform.radical (hdistinct hlength) hroots ?_
  intro extra hextra
  exact hform.extras extra hextra ▸ canonical_imaginary hrules

theorem yields_multiplyContent (hrules : rules.Admissible mode) (hmode : mode.numeric = false)
    (ih : Closed rules mode fuel)
    (ha : Canonical rules a) (hb : Canonical rules b) (hacoeff : a.coeff = 1)
    (hbcoeff : b.coeff = 1) (hanumber : a.isNumber = false) (hbnumber : b.isNumber = false) :
    Yields rules (multiplyContent mode (fuel + 1) a b) := by
  rw [multiplyContent.eq_def]
  dsimp only
  split
  next =>
    exact .foldlM (fun total htotal factor hfactor =>
      ih.combineFactors htotal (children_canonical hb factor hfactor)) ha
  next hproduct =>
    refine ih.insertFactor ha rfl hb hbcoeff hbnumber fun hgroup => ?_
    obtain ⟨coeff, power, factors, rfl⟩ := eq_product_of_group hgroup
    exact hproduct _ _ _ rfl
  next _ hproduct =>
    refine ih.insertFactor hb rfl ha hacoeff hanumber fun hgroup => ?_
    obtain ⟨coeff, power, factors, rfl⟩ := eq_product_of_group hgroup
    exact hproduct _ _ _ rfl
  next hproducta hproductb _ =>
    have hagroup : a.group ≠ .product := fun hgroup => by
      obtain ⟨coeff, power, factors, rfl⟩ := eq_product_of_group hgroup
      exact hproducta _ _ _ rfl
    have hbgroup : b.group ≠ .product := fun hgroup => by
      obtain ⟨coeff, power, factors, rfl⟩ := eq_product_of_group hgroup
      exact hproductb _ _ _ rfl
    split_ifs with hsum hkey
    · exact ih.distribute ha hb
    · exact ih.combinePowers ha hb
    · obtain ⟨hasum, hbsum⟩ := Bool.or_eq_false_iff.mp (Bool.not_eq_true _ ▸ hsum)
      split
      next coeff base power coeff' base' power' =>
        refine yields_combineRadicals hrules hmode ih ?_ le_rfl
        exact List.forall_mem_cons.mpr ⟨isFactorable_of_canonical ha,
          List.forall_mem_singleton.mpr (isFactorable_of_canonical hb)⟩
      next hradicals =>
        refine .ok (canonical_pairFactors hrules.toHereditary ha hb hacoeff hbcoeff
          (isFactor_iff.mpr ⟨hanumber, hagroup, hasum⟩)
          (isFactor_iff.mpr ⟨hbnumber, hbgroup, hbsum⟩) hkey ?_)
        rintro ⟨hagroup, hbgroup⟩
        cases a <;> simp only [group, reduceCtorEq] at hagroup
        cases b <;> simp only [group, reduceCtorEq] at hbgroup
        exact hradicals _ _ _ _ _ _ rfl rfl

/-! ## Products and one more factor -/

theorem product_of_group (h : Canonical rules total) (hgroup : total.group = .product) :
    ∃ coeff factors, total = .product coeff 1 factors ∧ coeff ≠ 0 ∧ IsProduct rules factors ∧
      ∀ slot ∈ factors, Canonical rules slot.2 := by
  cases h <;> simp only [group, reduceCtorEq] at hgroup
  case product coeff factors hcoeff hslots hfactors =>
    exact ⟨coeff, factors, rfl, hcoeff, hslots, hfactors⟩

theorem yields_insertFactor (hrules : rules.Admissible mode) (ih : Closed rules mode fuel)
    (htotal : Canonical rules total) (hproduct : total.group = .product)
    (hfactor : Canonical rules factor) (hcoeff : factor.coeff = 1)
    (hnumber : factor.isNumber = false) (hgroup : factor.group ≠ .product) :
    Yields rules (insertFactor mode (fuel + 1) total factor) := by
  obtain ⟨c, factors, rfl, hc, hslots, hfactors⟩ := product_of_group htotal hproduct
  rw [insertFactor.eq_def]
  dsimp only
  split_ifs with hsum hradical
  · exact ih.distribute htotal hfactor
  · exact ih.insertRadical htotal rfl hfactor
  · cases hfind : Slots.find? factor.multiplicativeKey factors with
    | none =>
        have hnoradical : factor.group ≠ .radical := fun hgroup => hradical (by
          simp [hgroup, slots, hfind])
        have hfactorial := isFactor_iff.mpr ⟨hnumber, hgroup, Bool.not_eq_true _ ▸ hsum⟩
        simp only [slots, hfind, withSlots]
        have hpart := hslots.part.append hcoeff hfactorial hnoradical rfl
          (Slots.find?_eq_none_iff.mp hfind)
        refine .ok (.product hc (hpart.isProduct ?_)
          (List.forall_mem_append.mpr ⟨hfactors, List.forall_mem_singleton.mpr hfactor⟩))
        have := hslots.two_le
        simp only [List.length_append]
        omega
    | some old =>
        have hold : Canonical rules old := hfactors _ (Slots.mem_of_find? hfind)
        have hrest := hslots.part.sublist hrules.toHereditary
          (Slots.erase_sublist factor.multiplicativeKey factors)
        simp only [slots, hfind, withSlots]
        refine .bind fun merged hmerged => ih.combineFactors ?_
          (ih.combinePowers hold hfactor merged hmerged)
        exact canonical_collapse_product hrules.toHereditary hc hrest fun slot hslot =>
          hfactors slot (Slots.mem_erase.mp hslot).1

/-! ## Products and one more radical -/

theorem placeFactors_append_singleton (slots : Slots) (factors : List Expr) (factor : Expr) :
    placeFactors slots (factors ++ [factor]) =
      match Slots.find? factor.multiplicativeKey (placeFactors slots factors).1 with
      | some _ => ((placeFactors slots factors).1, (placeFactors slots factors).2 ++ [factor])
      | none => ((placeFactors slots factors).1 ++ [(factor.multiplicativeKey, factor)],
          (placeFactors slots factors).2) := by
  rw [placeFactors, List.foldl_append]
  rfl

/-- Factors go into free slots; the others are returned. -/
theorem placeFactors_spec (slots : Slots) (factors : List Expr) :
    ∃ placed taken : List Expr, placeFactors slots factors =
        (slots ++ placed.map fun factor => (factor.multiplicativeKey, factor), taken) ∧
      placed.Sublist factors ∧ taken.Sublist factors ∧ (placed ++ taken).Perm factors ∧
      (slots.Distinct → Slots.Distinct
        (slots ++ placed.map fun factor => (factor.multiplicativeKey, factor))) := by
  induction factors using List.reverseRecOn with
  | nil => exact ⟨[], [], by simp [placeFactors], .refl _, .refl _, .nil, by simp⟩
  | append_singleton rest factor ih =>
      obtain ⟨placed, taken, hplace, hplaced, htaken, hperm, hdistinct⟩ := ih
      rw [placeFactors_append_singleton, hplace]
      dsimp only
      split
      next =>
        exact ⟨placed, taken ++ [factor], rfl, hplaced.trans (List.sublist_append_left _ _),
          htaken.append (.refl _), by simpa using hperm.append_right [factor], hdistinct⟩
      next hfind =>
        refine ⟨placed ++ [factor], taken, by simp, hplaced.append (.refl _),
          htaken.trans (List.sublist_append_left _ _), ?_, fun h => ?_⟩
        · rw [List.append_assoc, List.singleton_append]
          exact List.perm_middle.trans
            ((hperm.cons factor).trans (List.perm_append_singleton factor rest).symm)
        rw [List.map_append, ← List.append_assoc]
        exact Slots.distinct_append_singleton (hdistinct h) (Slots.find?_eq_none_iff.mp hfind)

theorem isFactorable_of_mem_radicals {slots : Slots}
    (hslots : ∀ slot ∈ slots, Canonical rules slot.2) :
    ∀ radical ∈ Slots.radicals slots, IsFactorable radical.1 := by
  intro radical hradical
  obtain ⟨⟨key, child⟩, hslot, hsome⟩ := List.mem_filterMap.mp hradical
  have hchild : Canonical rules child := hslots _ hslot
  cases child <;> simp only [reduceCtorEq, Option.some.injEq] at hsome
  subst hsome
  exact isFactorable_of_canonical hchild

theorem radicals_map_radicalOf (roots : List (Rat × Rat)) :
    Slots.radicals ((roots.map radicalOf).map fun factor => (factor.multiplicativeKey, factor)) =
      roots := by
  rw [List.map_map, Slots.radicals, splitRadicals, List.filterMap_map]
  exact List.filterMap_some

theorem radicals_of_others (slots : Slots) :
    Slots.radicals (splitRadicals slots).2 = [] := by
  refine List.filterMap_eq_nil_iff.mpr fun slot hslot => ?_
  have hgroup := (List.mem_filter.mp hslot).2
  obtain ⟨key, child⟩ := slot
  cases child <;> simp_all [group]

theorem canonical_radicalOf (hrules : rules.Hereditary) {roots : List (Rat × Rat)}
    (hroots : rules.radicals roots) (hradical : ∀ root ∈ roots, IsRadical root.1 root.2) :
    ∀ factor ∈ roots.map radicalOf, Canonical rules factor :=
  List.forall_mem_map.mpr fun root hroot =>
    .radical one_ne_zero (hradical root hroot)
      (hrules.sublist (List.singleton_sublist.mpr hroot) hroots)

/-- Factors that are no radicals, and radicals. -/
theorem isProductPart_radicals {others : Slots} {roots : List (Rat × Rat)}
    (hothers : IsProductPart rules others) (hnone : Slots.radicals others = [])
    (hroots : rules.radicals roots)
    (hdistinct : Slots.Distinct (others ++
      (roots.map radicalOf).map fun factor => (factor.multiplicativeKey, factor))) :
    IsProductPart rules (others ++
      (roots.map radicalOf).map fun factor => (factor.multiplicativeKey, factor)) where
  distinct := hdistinct
  key := List.forall_mem_append.mpr ⟨hothers.key,
    List.forall_mem_map.mpr fun _ _ => rfl⟩
  coeff := List.forall_mem_append.mpr ⟨hothers.coeff,
    List.forall_mem_map.mpr (List.forall_mem_map.mpr fun _ _ => rfl)⟩
  factor := List.forall_mem_append.mpr ⟨hothers.factor,
    List.forall_mem_map.mpr (List.forall_mem_map.mpr fun _ _ => rfl)⟩
  radicals := by
    rwa [Slots.radicals_append, hnone, radicals_map_radicalOf, List.nil_append]

theorem yields_insertRadical (hrules : rules.Admissible mode) (hmode : mode.numeric = false)
    (ih : Closed rules mode fuel) (htotal : Canonical rules total)
    (hproduct : total.group = .product) (hfactor : Canonical rules factor) :
    Yields rules (insertRadical mode (fuel + 1) total factor) := by
  obtain ⟨c, factors, rfl, hc, hslots, hfactors⟩ := product_of_group htotal hproduct
  rw [insertRadical.eq_def]
  dsimp only
  have hradicals : ∀ radical ∈ (splitRadicals factors).1 ++
      (splitRadicals [(factor.multiplicativeKey, factor)]).1, IsFactorable radical.1 :=
    List.forall_mem_append.mpr ⟨isFactorable_of_mem_radicals hfactors,
      isFactorable_of_mem_radicals (List.forall_mem_singleton.mpr hfactor)⟩
  obtain ⟨form, roots, hok, hform, -⟩ := exists_isForm hmode hradicals
  have hroots := hrules.form hradicals hok hform.factors
  have hothers := hslots.part.sublist hrules.toHereditary (List.filter_sublist
    (p := fun slot => slot.2.group != .radical))
  have hnodes := canonical_radicalOf hrules.toHereditary hroots hform.radical
  obtain ⟨placed, taken, hplace, hplaced, htaken, -, hdistinct⟩ :=
    placeFactors_spec (splitRadicals factors).2 form.factors
  simp only [slots, hok, bind, Except.bind, hplace, coeff, withCoeff, withSlots]
  rw [hform.factors] at hplaced htaken
  obtain ⟨roots', hsub, rfl⟩ := List.sublist_map_iff.mp hplaced
  refine .foldlM (fun result hresult extra hextra => ih.combineFactors hresult ?_) ?_
  · rcases List.mem_append.mp hextra with hextra | hextra
    · exact hform.extras extra hextra ▸ canonical_imaginary hrules
    · exact hnodes extra (htaken.subset hextra)
  · refine canonical_collapse_product hrules.toHereditary (mul_ne_zero hc hform.coefficient)
      (isProductPart_radicals hothers (radicals_of_others factors) (hrules.sublist hsub hroots)
        (hdistinct hothers.distinct)) ?_
    refine List.forall_mem_append.mpr
      ⟨fun slot hslot => hfactors slot (List.mem_filter.mp hslot).1, ?_⟩
    exact List.forall_mem_map.mpr fun factor hfactor => hnodes factor (hplaced.subset hfactor)

/-! ## Sums and powers -/

/-- One operand is expanded over its terms, if it has any. -/
theorem distribute_cases (mode : Mode) (a b : Expr) :
    ∃ sum other, ((sum = a ∧ other = b) ∨ (sum = b ∧ other = a)) ∧
      ((∀ fuel, distribute mode (fuel + 1) a b =
          (Slots.children sum.slots).foldlM (fun total term => do
            plus total (← combineFactors mode fuel term other)) (.number 0)) ∨
        ∀ fuel, distribute mode (fuel + 1) a b = .error .noTerms) := by
  cases hsum : a.isExpandedSum with
  | true =>
      refine ⟨a, b, .inl ⟨rfl, rfl⟩, ?_⟩
      simp only [distribute, hsum, if_true]
      cases a <;> first | exact .inl fun _ => rfl | exact .inr fun _ => rfl
  | false =>
      refine ⟨b, a, .inr ⟨rfl, rfl⟩, ?_⟩
      simp only [distribute, hsum, Bool.false_eq_true, if_false]
      cases b <;> first | exact .inl fun _ => rfl | exact .inr fun _ => rfl

theorem yields_distribute (hrules : rules.Admissible mode) (ih : Closed rules mode fuel)
    (ha : Canonical rules a) (hb : Canonical rules b) :
    Yields rules (distribute mode (fuel + 1) a b) := by
  obtain ⟨sum, other, horder, hterms | hnone⟩ := distribute_cases mode a b
  · obtain ⟨hsum, hother⟩ : Canonical rules sum ∧ Canonical rules other := by
      rcases horder with ⟨rfl, rfl⟩ | ⟨rfl, rfl⟩
      · exact ⟨ha, hb⟩
      · exact ⟨hb, ha⟩
    rw [hterms]
    refine .foldlM (fun total htotal term hterm => .bind fun product hproduct => ?_) (.number 0)
    refine fun node hnode => canonical_plus hrules.constant htotal ?_ hnode
    exact ih.combineFactors (List.forall_mem_map.mpr hsum.slots term hterm) hother product hproduct
  · rw [hnone]
    exact .error _

theorem isExponent_addExponents (hrules : rules.Admissible mode) {p q r : Exponent}
    (hp : Canonical.IsExponent rules p) (hq : Canonical.IsExponent rules q)
    (h : addExponents p q = .ok r) : Canonical.IsExponent rules r := by
  have hsum : ∀ {r}, (do return asExponent (← plus (asNode p) (asNode q))) = .ok r →
      Canonical.IsExponent rules r := by
    intro r h
    obtain ⟨node, hok, hnode, -⟩ :=
      totals_plus hrules.constant (canonical_asNode hp) (canonical_asNode hq)
    rw [hok] at h
    cases h
    exact isExponent_asExponent hnode
  cases hp with
  | rational =>
      cases hq with
      | rational =>
          cases h
          exact .rational _
      | symbolic => exact hsum h
  | symbolic => exact hsum h

theorem yields_combinePowers (hrules : rules.Admissible mode) (ih : Closed rules mode fuel)
    (ha : Canonical rules a) (hb : Canonical rules b) :
    Yields rules (combinePowers mode (fuel + 1) a b) := by
  rw [combinePowers.eq_def]
  refine .bind fun power hpower => .bind fun raised hraised => ?_
  refine .ok (canonical_scale_any hrules.toHereditary _ ?_)
  exact ih.raiseBase (ha.baseOf hrules) ha.isBase_baseOf
    (isExponent_addExponents hrules ha.exponent hb.exponent hpower) raised hraised

theorem isExponent_multiplyPowers (ih : Closed rules mode fuel) {p q r : Exponent}
    (hp : Canonical.IsExponent rules p) (hq : Canonical.IsExponent rules q)
    (h : multiplyPowers mode (fuel + 1) p q = .ok r) : Canonical.IsExponent rules r := by
  have hproduct : ∀ {r}, (do return asExponent (← combineFactors mode fuel (asNode p) (asNode q))) =
      .ok r → Canonical.IsExponent rules r := by
    intro r h
    cases hok : combineFactors mode fuel (asNode p) (asNode q) with
    | error fault =>
        rw [hok] at h
        cases h
    | ok node =>
        rw [hok] at h
        cases h
        exact isExponent_asExponent
          (ih.combineFactors (canonical_asNode hp) (canonical_asNode hq) node hok)
  rw [multiplyPowers.eq_def] at h
  cases hp with
  | rational =>
      cases hq with
      | rational =>
          cases h
          exact .rational _
      | symbolic => exact hproduct h
  | symbolic => exact hproduct h

theorem yields_raiseTo (hrules : rules.Admissible mode) (ih : Closed rules mode fuel)
    (ha : Canonical rules a) (hb : Canonical rules b) :
    Yields rules (raiseTo mode (fuel + 1) a b) := by
  rw [raiseTo.eq_def]
  dsimp only
  split
  next => exact ih.numberPower
  next =>
    split_ifs with hzero hcoeff
    · exact .ok (.number 1)
    · refine .bind fun power hpower => .bind fun result hresult => .ok ?_
      exact ih.raiseBase (ha.baseOf hrules) ha.isBase_baseOf
        (ih.multiplyPowers ha.exponent (.rational _) hpower) result hresult
    · refine .bind fun power hpower => .bind fun result hresult =>
        .bind fun number hnumber => ih.combineFactors (ih.numberPower number hnumber) ?_
      exact ih.raiseBase (ha.baseOf hrules) ha.isBase_baseOf
        (ih.multiplyPowers ha.exponent (.rational _) hpower) result hresult
  next _ hnumber =>
    refine ih.exponential ha (.number _) hb ?_
    cases b <;> first | rfl | exact (hnumber _ rfl).elim
  next hnumber _ _ =>
    have hsymbolic : b.isNumber = false := by
      cases b <;> first | rfl | exact (hnumber _ rfl).elim
    have hraise : ∀ power, multiplyPowers mode fuel a.exponent (.symbolic b) = .ok power →
        Yields rules (raiseBase mode fuel a.baseOf power) := fun power hpower =>
      ih.raiseBase (ha.baseOf hrules) ha.isBase_baseOf
        (ih.multiplyPowers ha.exponent (.symbolic hb hsymbolic) hpower)
    split_ifs
    · exact .bind fun power hpower => .bind fun result hresult =>
        .ok (hraise power hpower result hresult)
    · exact .bind fun power hpower => .bind fun result hresult => .bind fun factor hfactor =>
        ih.combineFactors (ih.exponential (.number _) (.number _) hb hsymbolic factor hfactor)
          (hraise power hpower result hresult)

theorem canonical_imaginaryPower (hrules : rules.Admissible mode) (n : Int) :
    Canonical rules (imaginaryPower mode n) := by
  unfold imaginaryPower
  split
  · exact .number 1
  · exact canonical_imaginary hrules
  · exact .number (-1)
  · exact .symbol (by norm_num) one_ne_zero hrules.imaginary

/-- A sum with a negative or fractional exponent. -/
theorem canonical_withPower (hrules : rules.Admissible mode) (hbase : Canonical rules base)
    (hsum : base.isExpandedSum = true) {p : Rat} (hp : p < 0 ∨ (0 < p ∧ p < 1)) :
    Canonical rules (base.withPower p) := by
  have hcoeff := hbase.coeff_of_isExpandedSum hsum
  have hshape : IsSum base.coeff p := .inr ⟨hcoeff ▸ one_ne_zero, hp⟩
  have hsumrules : p ≠ 1 → rules.sum p base.slots := fun _ => hrules.sum hp
  cases hbase <;> simp [isExpandedSum, isSum] at hsum
  case polynomial hslots hterms => exact .polynomial hshape hsumrules hslots hterms
  case composite hslots hterms => exact .composite hshape hsumrules hslots hterms

/-- The integral part of an exponent above one. -/
theorem sub_floor_toNat {p : Rat} (hone : 1 < p) (hne : (p.floor.toNat : Rat) ≠ p) :
    0 < p - p.floor.toNat ∧ p - p.floor.toNat < 1 := by
  have hfloor : (1 : Int) ≤ p.floor := Rat.le_floor_iff.mpr (by exact_mod_cast hone.le)
  have hcast : ((p.floor.toNat : Nat) : Rat) = p.floor := by
    exact_mod_cast Int.toNat_of_nonneg (by omega : 0 ≤ p.floor)
  rw [hcast] at hne ⊢
  exact ⟨(fraction_nonneg p).lt_of_ne fun hzero => hne (sub_eq_zero.mp hzero.symm).symm,
    fraction_lt_one p⟩

/-- A rational power of a sum. -/
theorem yields_raiseSum (hrules : rules.Admissible mode) (ih : Closed rules mode fuel)
    (hbase : Canonical rules base) (hsum : base.isExpandedSum = true) {p : Rat} (hzero : p ≠ 0)
    (hone : p ≠ 1) :
    Yields rules (if 1 < p then do
        let n := p.floor.toNat
        let whole ← if 1 < n then expandPower mode fuel base n else .ok base
        if (n : Rat) = p then return whole
        else distribute mode fuel whole (base.withPower (p - n))
      else .ok (base.withPower p)) := by
  by_cases hlt : 1 < p
  · rw [if_pos hlt]
    dsimp only
    have hrest : ∀ whole, Canonical rules whole → Yields rules
        (if (p.floor.toNat : Rat) = p then return whole
          else distribute mode fuel whole (base.withPower (p - p.floor.toNat))) := by
      intro whole hwhole
      split_ifs with hne
      · exact .ok hwhole
      · exact ih.distribute hwhole
          (canonical_withPower hrules hbase hsum (.inr (sub_floor_toNat hlt hne)))
    split
    · exact .bind fun whole hwhole => hrest whole (ih.expandPower hbase whole hwhole)
    · exact hrest base hbase
  · rw [if_neg hlt]
    refine .ok (canonical_withPower hrules hbase hsum ?_)
    rcases lt_or_gt_of_ne hzero with hneg | hpos
    · exact .inl hneg
    · exact .inr ⟨hpos, lt_of_le_of_ne (not_lt.mp hlt) hone⟩

theorem yields_raiseBase (hrules : rules.Admissible mode) (ih : Closed rules mode fuel)
    (hbase : Canonical rules base) (hshape : base.IsBase)
    (hpower : Canonical.IsExponent rules power) :
    Yields rules (raiseBase mode (fuel + 1) base power) := by
  rw [raiseBase.eq_def]
  dsimp only
  rw [asExponent_asNode hpower]
  cases hpower with
  | symbolic hexponent hnumber => exact ih.exponential hbase hshape hexponent hnumber
  | rational p =>
    dsimp only
    by_cases hzero : p = 0
    · simp only [hzero, if_true]
      cases base <;> first | exact ih.numberPower | exact .ok (.number 1)
    by_cases hone : p = 1
    · simp only [hone, if_true, one_ne_zero, if_false]
      cases base <;> first | exact ih.numberPower | exact .ok hbase
    simp only [hzero, hone, if_false]
    cases hshape with
    | number value => exact ih.numberPower
    | product factors =>
        exact ih.raiseFactors (children_canonical hbase) (.rational p)
    | plain hplain =>
      cases hbase <;> simp only [isPlain, Bool.false_and, reduceCtorEq] at hplain
      case symbol coeff name power hcoeff hpower hrules' =>
        dsimp only
        split_ifs with himaginary
        · exact .ok (canonical_imaginaryPower hrules _)
        · refine .ok (.symbol hcoeff hzero (hrules.symbol hrules' hzero fun hname hinteger => ?_))
          exact (himaginary (by simp [hname, hinteger])).elim
      case call hcoeff hpower hcall hargs => exact .ok (.call hcoeff hzero hcall hargs)
      case polynomial hsum hsumrules hslots hterms =>
        exact yields_raiseSum hrules ih (.polynomial hsum hsumrules hslots hterms)
          (Bool.and_eq_true_iff.mp hplain).2 hzero hone
      case composite hsum hsumrules hslots hterms =>
        exact yields_raiseSum hrules ih (.composite hsum hsumrules hslots hterms)
          (Bool.and_eq_true_iff.mp hplain).2 hzero hone

theorem yields_raiseFactors (hrules : rules.Admissible mode) (ih : Closed rules mode fuel)
    {coeff : Rat} {factors : List Expr} (hfactors : ∀ factor ∈ factors, Canonical rules factor)
    (hpower : Canonical.IsExponent rules power) :
    Yields rules (raiseFactors mode (fuel + 1) coeff factors power) := by
  rw [raiseFactors.eq_def]
  refine .foldlM (fun result hresult factor hfactor => ?_) (.number coeff)
  have hcanonical := hfactors factor hfactor
  refine .bind fun product hproduct => .bind fun raised hraised => ih.combineFactors hresult ?_
  exact ih.raiseBase (hcanonical.baseOf hrules) hcanonical.isBase_baseOf
    (ih.multiplyPowers hcanonical.exponent hpower hproduct) raised hraised

theorem yields_expandPower (ih : Closed rules mode fuel) (hbase : Canonical rules base) (n : Nat) :
    Yields rules (expandPower mode (fuel + 1) base n) := by
  rw [expandPower.eq_def]
  exact .foldlM (fun result hresult _ _ => ih.distribute hresult hbase) hbase

/-! ## Powers of constants -/

/-- A root of minus one by itself. -/
theorem radicals_negativeOnePower (hrules : rules.Admissible mode) {p sign turn : Rat}
    (h : negativeOnePower mode p = .ok (sign, some (.radical 1 (-1) turn))) :
    rules.radicals [(-1, turn)] := by
  have hform : combineRadicals mode [(-1, p)] =
      .ok ⟨sign * integralPart [], [.radical 1 (-1) turn], []⟩ := by
    have hcollect : collectExponents [(-1, p)] = .ok (p, []) := by
      simp [collectExponents]
    rw [combineRadicals, hcollect]
    simp only [bind, Except.bind, h]
    rfl
  exact hrules.form (List.forall_mem_singleton.mpr (.inl rfl)) hform rfl

theorem isFactorable_of_pos {b : Rat} (hden : b.den = 1) (hpos : 0 < b) : IsFactorable b := by
  have hnum : (b.num : Rat) = b := (Rat.den_eq_one_iff b).mp hden
  have hpos' : 0 < b.num := Rat.num_pos.mpr hpos
  refine .inr ⟨b.num.toNat, by omega, ?_⟩
  rw [← hnum]
  exact_mod_cast (Int.toNat_of_nonneg hpos'.le).symm

theorem yields_numberPower (hrules : rules.Admissible mode) (hmode : mode.numeric = false)
    (ih : Closed rules mode fuel) (b p : Rat) :
    Yields rules (numberPower mode (fuel + 1) b p) := by
  rw [numberPower.eq_def]
  dsimp only
  simp only [hmode, Bool.false_eq_true, if_false]
  split_ifs with hzero hpos hpzero hone hinteger hneg hden
  · exact .ok (.number 0)
  · exact .error _
  · exact .error _
  · exact .ok (.number 1)
  · exact .ok (.number _)
  · refine .bind fun magnitude hmagnitude => ?_
    have hcanonical := ih.numberPower magnitude hmagnitude
    obtain ⟨sign, extra, hok, hsign, hextra⟩ := negativeOnePower_cases hmode p
    simp only [hok, bind, Except.bind]
    cases hextra with
    | real => exact .ok (canonical_scale_any hrules.toHereditary _ hcanonical)
    | imaginary =>
        exact ih.combineFactors (canonical_scale_any hrules.toHereditary _ hcanonical)
          (canonical_imaginary hrules)
    | root hroot =>
        refine ih.combineFactors (canonical_scale_any hrules.toHereditary _ hcanonical)
          (.radical one_ne_zero hroot (radicals_negativeOnePower hrules hok))
  · refine .bind fun above habove => .bind fun below hbelow => ?_
    exact ih.combineFactors (ih.numberPower above habove) (ih.numberPower below hbelow)
  · refine yields_combineRadicals hrules hmode ih (List.forall_mem_singleton.mpr ?_) (by simp)
    exact isFactorable_of_pos (not_not.mp hden) (lt_of_le_of_ne (not_lt.mp hneg) (Ne.symm hzero))

/-- The base that an exponential is reduced to. -/
theorem reduceBase_spec {value : Rat} (hzero : value ≠ 0) (hone : value ≠ 1) (exponent : Expr) :
    (reduceBase value exponent).1 ≠ 0 ∧ (reduceBase value exponent).1 ≠ 1 ∧
      ∃ factor : Rat, factor ≠ 0 ∧ (reduceBase value exponent).2 = scale factor exponent := by
  unfold reduceBase
  split_ifs with hinteger
  · obtain ⟨hint, hlt⟩ := Bool.and_eq_true_iff.mp hinteger
    have hnum : (value.num : Rat) = value := (Rat.den_eq_one_iff value).mp (by
      simpa [Ratio.isInteger] using hint)
    have hlt' : (1 : Rat) < value.num := by
      rw [hnum]
      exact of_decide_eq_true hlt
    have hroot : 1 < (Root.perfectPower value.num.toNat).1 := by
      refine Root.one_lt_perfectPower_fst ?_
      have : 1 < value.num := by exact_mod_cast hlt'
      omega
    have hroot' : (1 : Rat) < (Root.perfectPower value.num.toNat).1 := by exact_mod_cast hroot
    dsimp only
    split_ifs with hdegree
    · refine ⟨by linarith, by linarith, _, ?_, rfl⟩
      exact_mod_cast (by omega : (Root.perfectPower value.num.toNat).2 ≠ 0)
    · exact ⟨hzero, hone, 1, one_ne_zero, (scale_one _).symm⟩
  · exact ⟨hzero, hone, 1, one_ne_zero, (scale_one _).symm⟩

theorem yields_exponential (hrules : rules.Admissible mode) (ih : Closed rules mode fuel)
    (hbase : Canonical rules base) (hshape : base.IsBase) (hexponent : Canonical rules exponent)
    (hnumber : exponent.isNumber = false) :
    Yields rules (Reduce.exponential mode (fuel + 1) base exponent) := by
  rw [exponential.eq_def]
  dsimp only
  cases hshape with
  | number value =>
      dsimp only
      by_cases hvalue : value = 0 ∨ value = 1
      · rw [if_pos hvalue]
        exact .ok (.number value)
      · rw [if_neg hvalue]
        obtain ⟨hzero, hone⟩ := not_or.mp hvalue
        obtain ⟨hbzero, hbone, factor, hfactor, hscale⟩ := reduceBase_spec hzero hone exponent
        have hexponent' : Canonical rules (reduceBase value exponent).2 := by
          rw [hscale]
          exact canonical_scale hrules.constant hfactor hexponent
        have hnumber' : (reduceBase value exponent).2.isNumber = false := by
          rw [hscale, isNumber_scale hfactor, hnumber]
        split_ifs with hconstant
        · exact .ok (.constantBase one_ne_zero hbzero hbone
            (hrules.constantBase hzero hone hconstant) hexponent' hnumber')
        · refine .bind fun rest hrest => .bind fun result hresult => .bind fun power hpower => ?_
          have hcanonical := canonical_plus hrules.constant hexponent' (.number _) hrest
          exact ih.combineFactors (ih.numberPower power hpower)
            (ih.raiseBase (.number _) (.number _) (isExponent_asExponent hcanonical)
              result hresult)
  | product factors =>
      exact ih.raiseFactors (children_canonical hbase) (.symbolic hexponent hnumber)
  | plain hplain =>
      have hcanonical : Canonical rules (.exponential 1 base exponent) :=
        .plainBase one_ne_zero hplain (hrules.plainBase hplain) hbase hexponent hnumber
      cases base <;> first | exact .ok hcanonical | cases hplain

/-! ## Products of radicals -/

theorem multiplicativeKey_radicalOf (root : Rat × Rat) :
    (radicalOf root).multiplicativeKey = .cons (.rational root.1) constantMark := rfl

theorem distinct_radicals {roots : List (Rat × Rat)} (h : (roots.map Prod.fst).Nodup) :
    Slots.Distinct ((roots.map radicalOf).map fun factor => (factor.multiplicativeKey, factor)) := by
  have hkeys : ((roots.map Prod.fst).map
      fun base => Key.cons (.rational base) constantMark).Nodup :=
    h.map fun _ _ heq => by simpa using heq
  rw [Slots.Distinct, List.map_map, List.map_map]
  rwa [List.map_map] at hkeys

/-- Radicals with distinct bases. -/
theorem canonical_productOf (hrules : rules.Hereditary) {coefficient : Rat}
    (hcoefficient : coefficient ≠ 0) {roots : List (Rat × Rat)}
    (hradical : ∀ root ∈ roots, IsRadical root.1 root.2)
    (hdistinct : (roots.map Prod.fst).Nodup) (hroots : rules.radicals roots) :
    Canonical rules (productOf coefficient (roots.map radicalOf)) := by
  have hnodes := canonical_radicalOf hrules hroots hradical
  match roots with
  | [] => exact .number coefficient
  | [root] => exact (hnodes _ List.mem_cons_self).withCoeff rfl hcoefficient
  | first :: second :: rest =>
      have hslots := distinct_radicals hdistinct
      have hnothing : IsProductPart rules [] :=
        ⟨Slots.distinct_nil, by simp, by simp, by simp, hrules.nothing⟩
      have hpart := isProductPart_radicals hnothing rfl hroots hslots
      rw [productOf, Slots.ofList_of_distinct hslots]
      · exact .product hcoefficient (hpart.isProduct (by simp))
          (List.forall_mem_map.mpr hnodes)
      all_goals simp

theorem yields_buildProduct (hrules : rules.Admissible mode) (ih : Closed rules mode fuel)
    {coefficient : Rat} (hcoefficient : coefficient ≠ 0) {roots : List (Rat × Rat)}
    {extras : List Expr} (hradical : ∀ root ∈ roots, IsRadical root.1 root.2)
    (hdistinct : (roots.map Prod.fst).Nodup) (hroots : rules.radicals roots)
    (hextras : ∀ extra ∈ extras, Canonical rules extra) :
    Yields rules (buildProduct mode (fuel + 1) coefficient (roots.map radicalOf) extras) := by
  rw [buildProduct.eq_def]
  exact .foldlM (fun result hresult extra hextra =>
    ih.combineFactors hresult (hextras extra hextra))
    (canonical_productOf hrules.toHereditary hcoefficient hradical hdistinct hroots)

/-! ## All amounts of fuel -/

theorem closed_succ (hrules : rules.Admissible mode) (hmode : mode.numeric = false)
    (ih : Closed rules mode fuel) : Closed rules mode (fuel + 1) where
  combineFactors := yields_combineFactors hrules ih
  multiplyContent := yields_multiplyContent hrules hmode ih
  insertFactor := yields_insertFactor hrules ih
  insertRadical := yields_insertRadical hrules hmode ih
  distribute := yields_distribute hrules ih
  combinePowers := yields_combinePowers hrules ih
  multiplyPowers := fun hp hq _ h => isExponent_multiplyPowers ih hp hq h
  raiseTo := yields_raiseTo hrules ih
  raiseBase := yields_raiseBase hrules ih
  raiseFactors := yields_raiseFactors hrules ih
  expandPower := fun hbase => yields_expandPower ih hbase _
  numberPower := yields_numberPower hrules hmode ih _ _
  exponential := yields_exponential hrules ih
  buildProduct := fun hcoefficient hradical hdistinct hroots hextras =>
    yields_buildProduct hrules ih hcoefficient hradical hdistinct hroots hextras

/-- The functions behind products and powers take canonical arguments to canonical
results. -/
theorem closed (hrules : rules.Admissible mode) (hmode : mode.numeric = false) (fuel : Nat) :
    Closed rules mode fuel := by
  induction fuel with
  | zero => exact closed_zero
  | succ fuel ih => exact closed_succ hrules hmode ih

end ExactAlgebra.Reduce
