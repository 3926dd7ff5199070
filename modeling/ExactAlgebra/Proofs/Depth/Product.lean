import ExactAlgebra.Proofs.Depth.Merge

/-!
# Products reach a result

Multiplication takes its operands apart into factors that weigh less, and factors that
merge lose potential.  So the load of the operands decreases with every nested product,
and one induction on it shows that any two canonical expressions have a product.
-/

namespace ExactAlgebra.Reduce

open ExactAlgebra.Expr

variable {mode : Mode} {rules : Discipline} {a b node total factor : Expr} {slots : Slots}
  {n : Nat} {c : Rat}

/-! ## Products of slots -/

theorem isTermWithin_collapse (hrules : rules.Admissible mode) (hc : c ≠ 0)
    (h : IsProductPart rules slots) (hslots : ∀ slot ∈ slots, Canonical rules slot.2) :
    IsTermWithin rules (totalPotential slots) (collapse (.product c 1 slots)) := by
  refine ⟨⟨canonical_collapse_product hrules.toHereditary hc h hslots,
    potential_collapse_le c slots⟩, .inl ?_⟩
  match slots with
  | [] => rfl
  | [slot] =>
      rw [collapse, isExpandedSum_scale hc]
      exact (isFactor_iff.mp (h.factor slot List.mem_cons_self)).2.2
  | first :: second :: rest => rfl

theorem totalPotential_erase {key : Key} {old : Expr} (hdistinct : slots.Distinct)
    (hold : (key, old) ∈ slots) :
    totalPotential slots = old.potential + totalPotential (Slots.erase key slots) := by
  rw [Slots.totalPotential_perm (Slots.perm_cons_erase hdistinct hold), totalPotential]

theorem totalPotential_splitRadicals (slots : Slots) :
    totalPotential slots =
      rootsPotential (Slots.radicals slots) + totalPotential (splitRadicals slots).2 := by
  induction slots with
  | nil => rfl
  | cons slot rest ih =>
      obtain ⟨key, child⟩ := slot
      rw [totalPotential, ih]
      cases child <;>
        simp [Slots.radicals, splitRadicals, group, rootsPotential, totalPotential, potential] <;>
        omega

theorem turns_append (roots roots' : List (Rat × Rat)) :
    turns (roots ++ roots') = turns roots ++ turns roots' := by
  simp [turns]

theorem isRadical_of_mem_turns (hslots : ∀ slot ∈ slots, Canonical rules slot.2) :
    ∀ power ∈ turns (Slots.radicals slots), IsRadical (-1) power := by
  intro power hpower
  obtain ⟨⟨base, power⟩, hroot, rfl⟩ := List.mem_map.mp hpower
  obtain ⟨hroot, hbase⟩ := List.mem_filter.mp hroot
  obtain rfl : base = -1 := of_decide_eq_true hbase
  obtain ⟨⟨key, child⟩, hslot, hsome⟩ := List.mem_filterMap.mp hroot
  have hchild : Canonical rules child := hslots _ hslot
  cases hchild <;> simp only [reduceCtorEq, Option.some.injEq] at hsome
  case radical hradical _ =>
    cases hsome
    exact hradical

/-! ## Products and one more radical -/

/-- The slots of radicals are free if there are no other radicals. -/
theorem distinct_append_radicals (h : IsProductPart rules slots)
    (hslots : ∀ slot ∈ slots, Canonical rules slot.2) (hnone : Slots.radicals slots = [])
    {roots : List (Rat × Rat)} (hdistinct : (roots.map Prod.fst).Nodup)
    (hradical : ∀ root ∈ roots, Canonical rules (radicalOf root)) :
    Slots.Distinct (slots ++ keyed (roots.map radicalOf)) := by
  rw [Slots.Distinct, List.map_append, List.nodup_append]
  refine ⟨h.distinct, distinct_radicals hdistinct, ?_⟩
  intro key hkey other hother heq
  obtain ⟨slot, hslot, rfl⟩ := List.mem_map.mp hkey
  obtain ⟨root, hroot, rfl⟩ : ∃ root ∈ roots, (radicalOf root).multiplicativeKey = other := by
    simpa [keyed] using hother
  have hsame : slot.2.multiplicativeKey = (radicalOf root).multiplicativeKey :=
    (h.key slot hslot).symm.trans heq
  obtain ⟨key, child⟩ := slot
  cases (hslots _ hslot).sameBase (hradical root hroot) (h.factor _ hslot) rfl hsame with
  | radical =>
      obtain ⟨before, after, hsplit⟩ := List.append_of_mem hslot
      rw [hsplit, Slots.radicals_append] at hnone
      cases (List.append_eq_nil_iff.mp hnone).2
  | plain _ hplain => cases hplain

/-- A product and one more radical: factors in slots of their own, and factors that are still
to be multiplied in.  If there are any of these, potential was spent. -/
structure IsPlaced (mode : Mode) (rules : Discipline) (c : Rat) (slots : Slots) (factor : Expr)
    (form : RadicalForm) (placed : Slots) (rest : List Expr) : Prop where
  combine : combineRadicals mode (Slots.radicals slots ++
    Slots.radicals [(factor.multiplicativeKey, factor)]) = .ok form
  place : ∃ taken, placeFactors (splitRadicals slots).2 form.factors = (placed, taken) ∧
    rest = form.extras ++ taken
  start : IsTermWithin rules (totalPotential placed)
    (collapse (.product (c * form.coefficient) 1 placed))
  factors : ∀ extra ∈ rest, Canonical rules extra ∧ extra.isFactor = true
  potential_le : totalPotential placed + (rest.map potential).sum ≤
    totalPotential slots + factor.potential
  potential_lt : rest ≠ [] → totalPotential placed + (rest.map potential).sum <
    totalPotential slots + factor.potential

theorem exists_isPlaced (hrules : rules.Admissible mode) (hmode : mode.numeric = false)
    (hc : c ≠ 0) (hslots : IsProduct rules slots)
    (hchildren : ∀ slot ∈ slots, Canonical rules slot.2) (hfactor : Canonical rules factor)
    (hradical : factor.group = .radical) :
    ∃ form placed rest, IsPlaced mode rules c slots factor form placed rest := by
  have hadded : ∀ slot ∈ [(factor.multiplicativeKey, factor)], Canonical rules slot.2 :=
    List.forall_mem_singleton.mpr hfactor
  have hradicals := List.forall_mem_append.mpr ⟨isFactorable_of_mem_radicals hchildren,
    isFactorable_of_mem_radicals hadded⟩
  have hturns : ∀ power ∈ turns (Slots.radicals slots ++
      Slots.radicals [(factor.multiplicativeKey, factor)]), IsRadical (-1) power := by
    rw [turns_append]
    exact List.forall_mem_append.mpr ⟨isRadical_of_mem_turns hchildren,
      isRadical_of_mem_turns hadded⟩
  obtain ⟨form, roots, hok, hform, -, hle, hlt⟩ := exists_isForm_potential hmode hradicals hturns
  obtain ⟨placed, taken, hplace, hplaced, htaken, hperm, hdistinct⟩ :=
    placeFactors_spec (splitRadicals slots).2 form.factors
  have hroots := hrules.form hradicals hok hform.factors
  have hnodes := canonical_radicalOf hrules.toHereditary hroots hform.radical
  have hothers : IsProductPart rules (splitRadicals slots).2 :=
    hslots.part.sublist hrules.toHereditary List.filter_sublist
  have hotherchildren : ∀ slot ∈ (splitRadicals slots).2, Canonical rules slot.2 :=
    fun slot hslot => hchildren slot (List.mem_filter.mp hslot).1
  -- radicals with distinct bases all have free slots
  have hfree (hnodup : (roots.map Prod.fst).Nodup) : taken = [] := by
    have hplace' := placeFactors_of_distinct (distinct_append_radicals hothers hotherchildren
      (radicals_of_others slots) hnodup (List.forall_mem_map.mp hnodes))
    rw [← hform.factors, hplace] at hplace'
    exact (Prod.ext_iff.mp hplace').2
  have hsum : rootsPotential (Slots.radicals slots ++
      Slots.radicals [(factor.multiplicativeKey, factor)]) =
        rootsPotential (Slots.radicals slots) + factor.potential := by
    cases factor <;> simp only [group, reduceCtorEq] at hradical
    simp [rootsPotential, Slots.radicals, splitRadicals, potential]
  have hfactors : (placed.map potential).sum + (taken.map potential).sum =
      rootsPotential roots := by
    rw [← List.sum_append, ← List.map_append, (hperm.map potential).sum_eq, hform.factors,
      sum_potential_radicals]
  have hunits := sum_potential_units hform.extras
  have htotal := totalPotential_splitRadicals slots
  have hplacedsum : totalPotential ((splitRadicals slots).2 ++ keyed placed) =
      totalPotential (splitRadicals slots).2 + (placed.map potential).sum := by
    rw [Slots.totalPotential_append, totalPotential_keyed]
  have hrestsum : ((form.extras ++ taken).map potential).sum =
      form.extras.length + (taken.map potential).sum := by
    rw [List.map_append, List.sum_append, hunits]
  have hrest : ∀ extra ∈ form.extras ++ taken, Canonical rules extra ∧ extra.isFactor = true := by
    refine List.forall_mem_append.mpr ⟨fun extra hextra => ?_, fun extra hextra => ?_⟩
    · rw [hform.extras extra hextra]
      exact ⟨canonical_imaginary hrules, rfl⟩
    · have hroot := hform.factors ▸ htaken.subset hextra
      obtain ⟨root, -, rfl⟩ := List.mem_map.mp hroot
      exact ⟨hnodes _ hroot, rfl⟩
  rw [hform.factors] at hplaced
  obtain ⟨roots', hsub, rfl⟩ := List.sublist_map_iff.mp hplaced
  refine ⟨form, _, _, hok, ⟨taken, hplace, rfl⟩, ?_, hrest, ?_, fun hne => ?_⟩
  · exact isTermWithin_collapse hrules (mul_ne_zero hc hform.coefficient)
      (isProductPart_radicals hothers (radicals_of_others slots) (hrules.sublist hsub hroots)
        (hdistinct hothers.distinct))
      (List.forall_mem_append.mpr ⟨hotherchildren,
        List.forall_mem_map.mpr fun factor hfactor => hnodes factor (hplaced.subset hfactor)⟩)
  · change totalPotential ((splitRadicals slots).2 ++ keyed _) + _ ≤ _
    omega
  · change totalPotential ((splitRadicals slots).2 ++ keyed _) + _ < _
    have hspent := hlt <| by
      by_contra hnone
      obtain ⟨hextras, hnodup⟩ := not_or.mp hnone
      exact hne (by rw [not_not.mp hextras, hfree (not_not.mp hnodup), List.append_nil])
    omega

theorem reaches_insertRadical (hrules : rules.Admissible mode) (hmode : mode.numeric = false)
    (ih : Multiplies rules mode n) (hn : 5 * (total.potential + factor.potential) ≤ n)
    (htotal : Canonical rules total) (hproduct : total.group = .product)
    (hfactor : Canonical rules factor) (hradical : factor.group = .radical) :
    Reaches (fun depth => insertRadical mode depth total factor)
      (IsTermWithin rules (total.potential + factor.potential)) := by
  obtain ⟨c, slots, rfl, hc, hslots, hchildren⟩ := product_of_group htotal hproduct
  obtain ⟨form, placed, rest, h⟩ :=
    exists_isPlaced hrules hmode hc hslots hchildren hfactor hradical
  obtain ⟨taken, hplace, rfl⟩ := h.place
  have hok : combineRadicals mode ((splitRadicals slots).1 ++
      (splitRadicals [(factor.multiplicativeKey, factor)]).1) = .ok form := h.combine
  have hle := h.potential_le
  rw [potential_product] at hn ⊢
  refine .succ rfl ?_
  simp only [insertRadical, Expr.slots, hok, bind, Except.bind, hplace, coeff, withCoeff, withSlots]
  by_cases hnothing : form.extras ++ taken = []
  · rw [hnothing] at hle ⊢
    exact .ok (h.start.mono (by simpa using hle))
  · have hlt := h.potential_lt hnothing
    exact (reaches_factors ih h.start h.factors (by omega)).mono fun node hnode => hnode.mono hle

/-! ## Products and one more factor -/

theorem IsTermWithin.isProductOf (h : IsTermWithin rules (a.potential + b.potential) node) :
    IsProductOf rules a b node :=
  ⟨h.within, fun _ _ => h.term⟩

theorem IsProductOf.symm (h : IsProductOf rules a b node) : IsProductOf rules b a node :=
  ⟨h.within.mono (Nat.add_comm _ _).le, fun hb ha => Nat.add_comm a.potential _ ▸ h.term ha hb⟩

/-- The product with a sum. -/
theorem reaches_distribute_product (hrules : rules.Admissible mode)
    (ih : Multiplies rules mode (a.load + b.load)) (ha : Canonical rules a) (hb : Canonical rules b)
    (hsum : a.isExpandedSum = true ∨ b.isExpandedSum = true) :
    Reaches (fun depth => distribute mode depth a b) (IsProductOf rules a b) := by
  refine (reaches_distribute hrules ih ha hb (fun hasum slot hslot => ?_) fun hasum => ?_).mono
    fun node hnode => ⟨hnode, fun hanot hbnot => ?_⟩
  · exact Nat.add_lt_add_right (ha.load_lt hasum hslot) _
  · have hbsum : b.isExpandedSum = true := by simpa [hasum] using hsum
    refine ⟨(isExpandedSum_iff.mp hbsum).1, fun slot hslot => ?_⟩
    rw [add_comm a.load]
    exact Nat.add_lt_add_right (hb.load_lt hbsum hslot) _
  · simp [hanot, hbnot] at hsum

/-- A factor of which the slot is taken, by no radical. -/
theorem reaches_mergeInto (hrules : rules.Admissible mode) (hmode : mode.numeric = false)
    (hc : c ≠ 0) {old : Expr} (ih : Multiplies rules mode n)
    (hn : 5 * (totalPotential slots + factor.potential) ≤ n)
    (hslots : IsProduct rules slots) (hchildren : ∀ slot ∈ slots, Canonical rules slot.2)
    (hold : (factor.multiplicativeKey, old) ∈ slots) (hgroup : old.group ≠ .radical)
    (hfactor : Canonical rules factor) (hshape : factor.isFactor = true) :
    Reaches (fun depth => do
      let merged ← combinePowers mode depth old factor
      combineFactors mode depth
        (collapse (.product c 1 (Slots.erase factor.multiplicativeKey slots))) merged)
      (IsTermWithin rules (totalPotential slots + factor.potential)) := by
  have herase := totalPotential_erase hslots.distinct hold
  have holdshape : old.isFactor = true := hslots.factor _ hold
  have hrest := isTermWithin_collapse hrules hc
    (hslots.part.sublist hrules.toHereditary (Slots.erase_sublist factor.multiplicativeKey slots))
    fun slot hslot => hchildren slot (Slots.mem_erase.mp hslot).1
  have hload : old.load + factor.load ≤ n := by
    rw [load_of_isFactor holdshape, load_of_isFactor hshape]
    omega
  refine (reaches_combinePowers hrules hmode (ih.mono hload) (hchildren _ hold) hfactor holdshape
    hshape (hslots.key _ hold).symm).bind fun merged hmerged => ?_
  have hspent := hmerged.2 hgroup
  have hrestload := hrest.load_le
  have hmergedload := load_le merged
  refine (ih hrest.within.1 hmerged.1.within.1 (by omega)).mono fun node hnode => ?_
  have hle := hrest.within.2
  have hnodele := hnode.within.2
  exact ⟨hnode.within.mono (by omega), .inr (by omega)⟩

/-- A factor of which the slot is free. -/
theorem isTermWithin_append (hc : c ≠ 0) (hslots : IsProduct rules slots)
    (hchildren : ∀ slot ∈ slots, Canonical rules slot.2) (hfactor : Canonical rules factor)
    (hcoeff : factor.coeff = 1) (hshape : factor.isFactor = true) (hgroup : factor.group ≠ .radical)
    (hfind : Slots.find? factor.multiplicativeKey slots = none) :
    IsTermWithin rules (totalPotential slots + factor.potential)
      (.product c 1 (slots ++ [(factor.multiplicativeKey, factor)])) := by
  have hpart := hslots.part.append hcoeff hshape hgroup rfl (Slots.find?_eq_none_iff.mp hfind)
  have htwo : 2 ≤ (slots ++ [(factor.multiplicativeKey, factor)]).length := by
    have := hslots.two_le
    simp only [List.length_append]
    omega
  refine ⟨⟨.product hc (hpart.isProduct htwo) (List.forall_mem_append.mpr
    ⟨hchildren, List.forall_mem_singleton.mpr hfactor⟩), ?_⟩, .inl rfl⟩
  rw [potential_product, Slots.totalPotential_append]
  simp [totalPotential]

theorem reaches_insertFactor (hrules : rules.Admissible mode) (hmode : mode.numeric = false)
    (ih : Multiplies rules mode (total.load + factor.load)) (htotal : Canonical rules total)
    (hproduct : total.group = .product) (hfactor : Canonical rules factor)
    (hcoeff : factor.coeff = 1) (hnumber : factor.isNumber = false)
    (hgroup : factor.group ≠ .product) :
    Reaches (fun depth => insertFactor mode depth total factor)
      (IsProductOf rules total factor) := by
  refine .succ rfl ?_
  simp only [insertFactor]
  cases hsum : factor.isExpandedSum with
  | true =>
      simp only [if_true]
      exact reaches_distribute_product hrules ih htotal hfactor (.inr hsum)
  | false =>
      have hshape := isFactor_iff.mpr ⟨hnumber, hgroup, hsum⟩
      obtain ⟨c, slots, rfl, hc, hslots, hchildren⟩ := product_of_group htotal hproduct
      have hload : 5 * (totalPotential slots + factor.potential) ≤
          (product c 1 slots).load + factor.load := by
        rw [load_product, load_of_isFactor hshape]
        omega
      simp only [Bool.false_eq_true, if_false]
      refine Reaches.mono ?_ fun node => IsTermWithin.isProductOf
      rw [potential_product]
      split_ifs with hradical
      · have hradical := (Bool.and_eq_true_iff.mp hradical).1
        have hinsert := reaches_insertRadical hrules hmode ih (by rwa [potential_product]) htotal
          hproduct hfactor (by simpa using hradical)
        rwa [potential_product] at hinsert
      · cases hfind : Slots.find? factor.multiplicativeKey slots with
        | none =>
            have hnot : factor.group ≠ .radical := fun hgroup => hradical (by
              simp [hgroup, Expr.slots, hfind])
            simp only [Expr.slots, hfind, withSlots]
            exact .ok (isTermWithin_append hc hslots hchildren hfactor hcoeff hshape hnot hfind)
        | some old =>
            have hold := Slots.mem_of_find? hfind
            have hnot : old.group ≠ .radical := fun hgroup => hradical (by
              have hsame := (hchildren _ hold).sameBase hfactor (hslots.factor _ hold) hshape
                (hslots.key _ hold).symm
              simp [hsame.group_eq_radical hgroup, Expr.slots, hfind, hgroup])
            simp only [Expr.slots, hfind, withSlots]
            exact reaches_mergeInto hrules hmode hc ih hload hslots hchildren hold hnot hfactor
              hshape

/-! ## Products of two expressions -/

theorem isTermWithin_pairFactors (hrules : rules.Admissible mode) (ha : Canonical rules a)
    (hb : Canonical rules b) (hacoeff : a.coeff = 1) (hbcoeff : b.coeff = 1)
    (hafactor : a.isFactor = true) (hbfactor : b.isFactor = true)
    (hkey : a.multiplicativeKey ≠ b.multiplicativeKey)
    (hgroup : ¬ (a.group = .radical ∧ b.group = .radical)) :
    IsTermWithin rules (a.potential + b.potential) (pairFactors a b) := by
  refine ⟨⟨canonical_pairFactors hrules.toHereditary ha hb hacoeff hbcoeff hafactor hbfactor
    hkey hgroup, ?_⟩, .inl rfl⟩
  rw [pairFactors, Slots.ofList_pair hkey, potential_product]
  simp [totalPotential]

/-- The product of two radicals with different bases. -/
theorem reaches_radicals (hrules : rules.Admissible mode) (hmode : mode.numeric = false)
    {c c' base base' p p' : Rat} (ih : Multiplies rules mode n)
    (ha : Canonical rules (.radical c base p)) (hb : Canonical rules (.radical c' base' p'))
    (hn : 5 * (rootPotential base + rootPotential base') ≤ n) :
    Reaches (fun depth => do
      let form ← combineRadicals mode [(base, p), (base', p')]
      buildProduct mode depth form.coefficient form.factors form.extras)
      (IsTermWithin rules (rootPotential base + rootPotential base')) := by
  have hsum : rootsPotential [(base, p), (base', p')] =
      rootPotential base + rootPotential base' := by
    simp [rootsPotential]
  have hslots : ∀ slot ∈ [(constantMark, Expr.radical c base p),
      (constantMark, Expr.radical c' base' p')], Canonical rules slot.2 := by
    simpa using ⟨ha, hb⟩
  rw [← hsum] at hn ⊢
  exact reaches_combineRadicals hrules hmode ih (isFactorable_of_mem_radicals hslots)
    (isRadical_of_mem_turns hslots) (by simp) hn

theorem multiplyContent_factors (ha : a.isFactor = true) (hb : b.isFactor = true) (depth : Nat) :
    multiplyContent mode (depth + 1) a b =
      if a.multiplicativeKey = b.multiplicativeKey then combinePowers mode depth a b
      else match a, b with
        | .radical _ base power, .radical _ base' power' => do
            let form ← combineRadicals mode [(base, power), (base', power')]
            buildProduct mode depth form.coefficient form.factors form.extras
        | _, _ => .ok (pairFactors a b) := by
  obtain ⟨-, hagroup, hasum⟩ := isFactor_iff.mp ha
  obtain ⟨-, hbgroup, hbsum⟩ := isFactor_iff.mp hb
  rw [multiplyContent.eq_def]
  cases a <;> simp only [group, ne_eq, not_true_eq_false] at hagroup <;>
    cases b <;> simp only [group, ne_eq, not_true_eq_false] at hbgroup <;>
    simp only [hasum, hbsum, Bool.or_self, Bool.false_eq_true, if_false]

/-- The product of two factors. -/
theorem reaches_multiplyFactors (hrules : rules.Admissible mode) (hmode : mode.numeric = false)
    (ih : Multiplies rules mode (a.load + b.load)) (ha : Canonical rules a) (hb : Canonical rules b)
    (hacoeff : a.coeff = 1) (hbcoeff : b.coeff = 1) (hafactor : a.isFactor = true)
    (hbfactor : b.isFactor = true) :
    Reaches (fun depth => multiplyContent mode depth a b)
      (IsTermWithin rules (a.potential + b.potential)) := by
  refine .succ rfl ?_
  simp only [multiplyContent_factors hafactor hbfactor]
  split_ifs with hkey
  · exact (reaches_combinePowers hrules hmode ih ha hb hafactor hbfactor hkey).mono
      fun node hnode => hnode.1
  · by_cases hgroup : a.group = .radical ∧ b.group = .radical
    · obtain ⟨root, rfl⟩ := eq_radicalOf hgroup.1 hacoeff
      obtain ⟨root', rfl⟩ := eq_radicalOf hgroup.2 hbcoeff
      rw [load_of_isFactor hafactor, load_of_isFactor hbfactor] at ih
      rw [potential_radicalOf, potential_radicalOf] at ih ⊢
      exact reaches_radicals hrules hmode ih ha hb (by omega)
    · have hpair :=
        isTermWithin_pairFactors hrules ha hb hacoeff hbcoeff hafactor hbfactor hkey hgroup
      cases a <;> cases b <;> first | exact .ok hpair | exact absurd ⟨rfl, rfl⟩ hgroup

theorem reaches_multiplyProducts {c' : Rat} {slots' : Slots}
    (ih : Multiplies rules mode ((product c 1 slots).load + (product c' 1 slots').load))
    (ha : Canonical rules (.product c 1 slots)) (hb : Canonical rules (.product c' 1 slots')) :
    Reaches (fun depth => multiplyContent mode depth (.product c 1 slots) (.product c' 1 slots'))
      (IsTermWithin rules
        ((product c 1 slots).potential + (product c' 1 slots').potential)) := by
  obtain ⟨-, hslots⟩ : c' ≠ 0 ∧ IsProduct rules slots' := by
    cases hb with
    | product hc hslots => exact ⟨hc, hslots⟩
  have hsum : ((Slots.children slots').map potential).sum = (product c' 1 slots').potential := by
    rw [potential_product, Slots.totalPotential_eq, Slots.children, List.map_map]
    rfl
  have hstart : IsTermWithin rules (product c 1 slots).potential (product c 1 slots) :=
    ⟨⟨ha, le_rfl⟩, .inl rfl⟩
  refine .succ rfl ?_
  simp only [multiplyContent]
  rw [← hsum]
  refine reaches_factors ih hstart (List.forall_mem_map.mpr fun slot hslot =>
    ⟨hb.slots slot hslot, hslots.factor slot hslot⟩) ?_
  rw [hsum, load_product, load_product, potential_product, potential_product]
  omega

/-- A product and an expression that is none. -/
theorem multiplyContent_product (mode : Mode) (fuel : Nat) (c : Rat) (slots : Slots)
    (h : node.group ≠ .product) :
    multiplyContent mode (fuel + 1) (.product c 1 slots) node =
        insertFactor mode fuel (.product c 1 slots) node ∧
      multiplyContent mode (fuel + 1) node (.product c 1 slots) =
        insertFactor mode fuel (.product c 1 slots) node := by
  rw [multiplyContent.eq_def, multiplyContent.eq_def]
  cases node <;> simp only [group, ne_eq, not_true_eq_false] at h <;> exact ⟨rfl, rfl⟩

theorem reaches_multiplyContent (hrules : rules.Admissible mode) (hmode : mode.numeric = false)
    (ih : Multiplies rules mode (a.load + b.load)) (ha : Canonical rules a) (hb : Canonical rules b)
    (hacoeff : a.coeff = 1) (hbcoeff : b.coeff = 1) (hanumber : a.isNumber = false)
    (hbnumber : b.isNumber = false) :
    Reaches (fun depth => multiplyContent mode depth a b) (IsProductOf rules a b) := by
  by_cases hagroup : a.group = .product
  · obtain ⟨c, slots, rfl, -⟩ := product_of_group ha hagroup
    by_cases hbgroup : b.group = .product
    · obtain ⟨c', slots', rfl, -⟩ := product_of_group hb hbgroup
      exact (reaches_multiplyProducts ih ha hb).mono fun node => IsTermWithin.isProductOf
    · refine .succ rfl ?_
      simp only [(multiplyContent_product mode _ c slots hbgroup).1]
      exact reaches_insertFactor hrules hmode ih ha rfl hb hbcoeff hbnumber hbgroup
  by_cases hbgroup : b.group = .product
  · obtain ⟨c, slots, rfl, -⟩ := product_of_group hb hbgroup
    refine .succ rfl ?_
    simp only [(multiplyContent_product mode _ c slots hagroup).2]
    rw [add_comm] at ih
    exact (reaches_insertFactor hrules hmode ih hb rfl ha hacoeff hanumber hagroup).mono
      fun node => IsProductOf.symm
  by_cases hsum : (a.isExpandedSum || b.isExpandedSum) = true
  · have hstep (depth : Nat) :
        multiplyContent mode (depth + 1) a b = distribute mode depth a b := by
      rw [multiplyContent.eq_def]
      cases a <;> simp only [group, not_true_eq_false] at hagroup <;>
        cases b <;> simp only [group, not_true_eq_false] at hbgroup <;>
        simp only [hsum, if_true]
    refine .succ rfl ?_
    simp only [hstep]
    exact reaches_distribute_product hrules ih ha hb (Bool.or_eq_true_iff.mp hsum)
  · obtain ⟨hasum, hbsum⟩ := Bool.or_eq_false_iff.mp (Bool.not_eq_true _ ▸ hsum)
    exact (reaches_multiplyFactors hrules hmode ih ha hb hacoeff hbcoeff
      (isFactor_iff.mpr ⟨hanumber, hagroup, hasum⟩)
      (isFactor_iff.mpr ⟨hbnumber, hbgroup, hbsum⟩)).mono fun node => IsTermWithin.isProductOf

/-! ## All products -/

theorem IsProductOf.scale (hrules : rules.Hereditary) (h : IsProductOf rules a b node) (c : Rat) :
    IsProductOf rules a b (scale c node) where
  within := ⟨canonical_scale_any hrules c h.within.1,
    (potential_scale_le c node).trans h.within.2⟩
  term ha hb := by
    by_cases hc : c = 0
    · rw [hc, scale_zero]
      exact .inl rfl
    · rw [isExpandedSum_scale hc, potential_scale hc]
      exact h.term ha hb

theorem isProductOf_scale (hrules : rules.Hereditary) (hb : Canonical rules b) (c : Rat) :
    IsProductOf rules (.number c) b (scale c b) where
  within := ⟨canonical_scale_any hrules c hb,
    (potential_scale_le c b).trans (Nat.le_add_left _ _)⟩
  term _ hsum := by
    by_cases hc : c = 0
    · rw [hc, scale_zero]
      exact .inl rfl
    · rw [isExpandedSum_scale hc]
      exact .inl hsum

/-- What one product takes: that operands of a smaller load have a product. -/
theorem reaches_combineFactors (hrules : rules.Admissible mode) (hmode : mode.numeric = false)
    (ih : Multiplies rules mode (a.load + b.load)) (ha : Canonical rules a)
    (hb : Canonical rules b) :
    Reaches (fun depth => combineFactors mode depth a b) (IsProductOf rules a b) := by
  refine .succ rfl ?_
  cases hanumber : a.isNumber with
  | true =>
      obtain ⟨c, rfl⟩ := exists_eq_number hanumber
      simp only [(combineFactors_number mode _ c b).2]
      exact .ok (isProductOf_scale hrules.toHereditary hb c)
  | false =>
  cases hbnumber : b.isNumber with
  | true =>
      obtain ⟨c, rfl⟩ := exists_eq_number hbnumber
      simp only [(combineFactors_number mode _ c a).1]
      exact .ok (isProductOf_scale hrules.toHereditary ha c).symm
  | false =>
      have hcontent {x y : Expr} (hx : Canonical rules x) (hy : Canonical rules y)
          (hxnumber : x.isNumber = false) (hynumber : y.isNumber = false)
          (ih : Multiplies rules mode (x.load + y.load)) :
          Reaches (fun depth => multiplyContent mode depth (x.withCoeff 1) (y.withCoeff 1))
            (IsProductOf rules x y) := by
        refine (reaches_multiplyContent hrules hmode (by simpa using ih) hx.withCoeff_one
          hy.withCoeff_one (coeff_withCoeff _ _) (coeff_withCoeff _ _) (by simpa using hxnumber)
          (by simpa using hynumber)).mono fun node hnode => ⟨?_, ?_⟩
        · simpa using hnode.within
        · simpa using hnode.term
      obtain ⟨x, y, hxy, hstep⟩ := combineFactors_eq_map mode hanumber hbnumber
      have hproduct : Reaches (fun depth => multiplyContent mode depth (x.withCoeff 1)
          (y.withCoeff 1)) (IsProductOf rules a b) := by
        rcases hxy with ⟨rfl, rfl⟩ | ⟨rfl, rfl⟩
        · exact hcontent ha hb hanumber hbnumber ih
        · rw [add_comm] at ih
          exact (hcontent hb ha hbnumber hanumber ih).mono fun node => IsProductOf.symm
      simp only [hstep]
      refine hproduct.bind fun content hcontent => ?_
      exact .ok (hcontent.scale hrules.toHereditary _)

/-- Any two canonical expressions have a product, which is canonical. -/
theorem multiplies (hrules : rules.Admissible mode) (hmode : mode.numeric = false) (n : Nat) :
    Multiplies rules mode n := by
  induction n with
  | zero => exact fun _ _ _ _ hload => absurd hload (Nat.not_lt_zero _)
  | succ n ih =>
      exact fun _ _ ha hb hload =>
        reaches_combineFactors hrules hmode (ih.mono (Nat.le_of_lt_succ hload)) ha hb

end ExactAlgebra.Reduce
