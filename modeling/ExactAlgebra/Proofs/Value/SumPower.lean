import ExactAlgebra.Environment
import ExactAlgebra.Proofs.Canonical.Coefficient
import ExactAlgebra.Proofs.Canonical.Plain
import ExactAlgebra.Proofs.Depth.Operations
import ExactAlgebra.Proofs.Value.Power

/-!
# Powers of sums with a fractional exponent

A sum to a power above one is the expansion of the integral part of the power, distributed
over the fractional part.  The expansion need not be a sum; then it is the fractional part
that is taken for the sum, as if it had exponent one.
-/

namespace ExactAlgebra

open ExactAlgebra.Expr Reduce

namespace Reduce

variable {mode : Mode} {fuel : Nat} {p c : Rat} {a b sum other whole node : Expr} {slots : Slots}

/-! ## Single steps -/

theorem isPlain_of_isExpandedSum {rules : Discipline} (h : Canonical rules sum)
    (hsum : sum.isExpandedSum = true) : sum.isPlain = true := by
  obtain ⟨hissum, hpower⟩ := isExpandedSum_iff.mp hsum
  exact isPlain_iff.mpr ⟨.inr (.inr hissum), h.coeff_of_isExpandedSum hsum, hpower⟩

theorem raiseTo_plain (h : a.isPlain = true) (hp : p ≠ 0) :
    raiseTo mode (fuel + 2) a (.number p) = raiseBase mode (fuel + 1) a (.rational p) := by
  have hcoeff : a.coeff = 1 := (isPlain_iff.mp h).2.1
  have hmultiply : multiplyPowers mode (fuel + 1) a.exponent (.rational p) =
      .ok (.rational p) := by
    rw [exponent_of_isPlain h, multiplyPowers.eq_def]
    simp only [one_mul]
  have hnumber := isNumber_of_isPlain h
  rw [raiseTo.eq_def]
  cases a <;> simp only [isNumber, Bool.true_eq_false] at hnumber <;>
    simp only [hp, if_false, hmultiply, baseOf_of_isPlain h, hcoeff, if_true] <;>
    exact bind_pure (m := Except Fault) _

/-- The expansion of the integral part of a power. -/
def expansion (mode : Mode) (fuel : Nat) (sum : Expr) (n : Nat) : Except Fault Expr :=
  if 1 < n then expandPower mode fuel sum n else .ok sum

theorem raiseBase_expandedSum (hsum : sum.isExpandedSum = true) (hp : 1 < p) :
    raiseBase mode (fuel + 1) sum (.rational p) =
      (do let whole ← expansion mode fuel sum p.floor.toNat
          if (p.floor.toNat : Rat) = p then return whole
          else distribute mode fuel whole (sum.withPower (p - p.floor.toNat))) := by
  have hzero : p ≠ 0 := by linarith
  have hone : p ≠ 1 := by linarith
  rw [raiseBase.eq_def]
  cases sum <;> simp only [isExpandedSum, isSum, Bool.false_and, Bool.false_eq_true] at hsum <;>
    simp only [asNode, asExponent, hzero, hone, hp, if_false, if_true, expansion] <;>
    split_ifs <;> rfl

theorem raiseBase_natCast (hsum : sum.isExpandedSum = true) {n : Nat} (hn : 1 ≤ n) :
    raiseBase mode (fuel + 1) sum (.rational n) = expansion mode fuel sum n := by
  rcases hn.eq_or_lt with rfl | hlt
  · rw [raiseBase.eq_def]
    cases sum <;> simp only [isExpandedSum, isSum, Bool.false_and, Bool.false_eq_true] at hsum <;>
      simp [asNode, asExponent, expansion]
  · have hfloor : (n : Rat).floor.toNat = n := by
      rw [← Int.cast_natCast (R := Rat) n, Rat.floor_intCast, Int.toNat_natCast]
    rw [raiseBase_expandedSum hsum (by exact_mod_cast hlt), hfloor]
    simp only [if_true]
    exact bind_pure (m := Except Fault) _

/-- The sum of the products of some terms with another expression. -/
def expand (mode : Mode) (fuel : Nat) (slots : Slots) (other : Expr) : Except Fault Expr :=
  slots.children.foldlM (fun total term => do
    plus total (← combineFactors mode fuel term other)) (.number 0)

theorem distribute_eq_expand (mode : Mode) (fuel : Nat) (hsum : sum.isSum = true)
    (hother : other.isExpandedSum = false) :
    distribute mode (fuel + 1) other sum = expand mode fuel sum.slots other :=
  (distribute_eq mode fuel other hsum).2 hother

/-- The product of an expanded sum and an expression that is none. -/
theorem multiplyContent_expandedSum (mode : Mode) (fuel : Nat) (hsum : sum.isExpandedSum = true)
    (hother : other.isExpandedSum = false) (hab : (a = sum ∧ b = other) ∨ (a = other ∧ b = sum)) :
    multiplyContent mode (fuel + 3) a b =
      expand mode (if other.group = .product then fuel else fuel + 1) sum.slots other := by
  have hissum := (isExpandedSum_iff.mp hsum).1
  have hleft : ∀ fuel, distribute mode (fuel + 1) sum other = expand mode fuel sum.slots other :=
    fun fuel => (distribute_eq mode fuel other hissum).1 hsum
  have hright : ∀ fuel, distribute mode (fuel + 1) other sum = expand mode fuel sum.slots other :=
    fun fuel => distribute_eq_expand mode fuel hissum hother
  have hsumgroup : sum.group ≠ .product := by
    cases sum <;> simp_all [isSum, group]
  have hinsert : insertFactor mode (fuel + 2) other sum = expand mode fuel sum.slots other := by
    rw [insertFactor.eq_def]
    simp only [hsum, if_true]
    exact hright fuel
  by_cases hgroup : other.group = .product
  · have hproduct :
        multiplyContent mode (fuel + 3) a b = insertFactor mode (fuel + 2) other sum := by
      obtain ⟨c, p, slots, rfl⟩ := eq_product_of_group hgroup
      rw [multiplyContent.eq_def]
      rcases hab with ⟨rfl, rfl⟩ | ⟨rfl, rfl⟩
      · cases a <;> first | rfl | cases hsum
      · cases b <;> first | rfl | cases hsum
    rw [if_pos hgroup, hproduct, hinsert]
  · have hdistribute : multiplyContent mode (fuel + 3) a b = distribute mode (fuel + 2) a b := by
      have heither : a.isExpandedSum = true ∨ b.isExpandedSum = true := by
        rcases hab with ⟨rfl, rfl⟩ | ⟨rfl, rfl⟩
        · exact .inl hsum
        · exact .inr hsum
      have hagroup : a.group ≠ .product := by
        rcases hab with ⟨rfl, rfl⟩ | ⟨rfl, rfl⟩
        · exact hsumgroup
        · exact hgroup
      have hbgroup : b.group ≠ .product := by
        rcases hab with ⟨rfl, rfl⟩ | ⟨rfl, rfl⟩
        · exact hgroup
        · exact hsumgroup
      rw [multiplyContent.eq_def]
      cases a <;> simp only [group, ne_eq, not_true_eq_false] at hagroup <;>
        cases b <;> simp only [group, ne_eq, not_true_eq_false] at hbgroup <;>
        simp only [Bool.or_eq_true_iff.mpr heither, if_true]
    rw [if_neg hgroup, hdistribute]
    rcases hab with ⟨rfl, rfl⟩ | ⟨rfl, rfl⟩
    · exact hleft (fuel + 1)
    · exact hright (fuel + 1)

/-- The product of an expanded sum and another expression, by content. -/
theorem combineFactors_expandedSum (mode : Mode) (fuel : Nat) (hsum : sum.isExpandedSum = true)
    (hone : sum.coeff = 1) (hother : other.isExpandedSum = false)
    (hnumber : other.isNumber = false) (hab : (a = sum ∧ b = other) ∨ (a = other ∧ b = sum)) :
    combineFactors mode (fuel + 4) a b =
      (expand mode (if other.group = .product then fuel else fuel + 1) sum.slots
        (other.withCoeff 1)).map (scale (a.coeff * b.coeff)) := by
  have hsumnumber := isNumber_of_isSum (isExpandedSum_iff.mp hsum).1
  have hnumbers : a.isNumber = false ∧ b.isNumber = false := by
    rcases hab with ⟨rfl, rfl⟩ | ⟨rfl, rfl⟩
    · exact ⟨hsumnumber, hnumber⟩
    · exact ⟨hnumber, hsumnumber⟩
  obtain ⟨x, y, hxy, hstep⟩ := combineFactors_eq_map mode hnumbers.1 hnumbers.2
  have hcontent : (x.withCoeff 1 = sum ∧ y.withCoeff 1 = other.withCoeff 1) ∨
      (x.withCoeff 1 = other.withCoeff 1 ∧ y.withCoeff 1 = sum) := by
    rcases hab with ⟨rfl, rfl⟩ | ⟨rfl, rfl⟩ <;> rcases hxy with ⟨rfl, rfl⟩ | ⟨rfl, rfl⟩ <;>
      simp [withCoeff_of_coeff_eq hone]
  rw [hstep, multiplyContent_expandedSum mode fuel hsum
    ((isExpandedSum_withCoeff 1 other).trans hother) hcontent, group_withCoeff]

/-! ## Multiples -/

/-- Terms that are multiples of other terms have a sum that is a multiple. -/
theorem exists_foldlM_smul (product product' : Expr → Except Fault Expr) (c : Rat)
    (h : ∀ slot ∈ slots, ∃ term term', product slot.2 = .ok term ∧ product' slot.2 = .ok term' ∧
      Canonical .proper term ∧ Canonical .proper term' ∧ term.linear = c • term'.linear)
    (ha : Canonical .proper a) (hb : Canonical .proper b) (hab : a.linear = c • b.linear) :
    ∃ node node', slots.children.foldlM (fun total term => do plus total (← product term)) a =
        .ok node ∧
      slots.children.foldlM (fun total term => do plus total (← product' term)) b = .ok node' ∧
      Canonical .proper node ∧ Canonical .proper node' ∧ node.linear = c • node'.linear := by
  induction slots generalizing a b with
  | nil => exact ⟨a, b, rfl, rfl, ha, hb, hab⟩
  | cons slot rest ih =>
      obtain ⟨term, term', hok, hok', hterm, hterm', hlinear⟩ := h slot List.mem_cons_self
      obtain ⟨next, hplus, hnext, htotal⟩ := Arithmetic.proper_add ha hterm
      obtain ⟨next', hplus', hnext', htotal'⟩ := Arithmetic.proper_add hb hterm'
      have hnexts : next.linear = c • next'.linear := by
        rw [htotal, htotal', hab, hlinear, smul_add]
      obtain ⟨node, node', hrest, hrest', hnode⟩ := ih
        (fun slot hslot => h slot (List.mem_cons_of_mem _ hslot)) hnext hnext' hnexts
      rw [Arithmetic.add] at hplus hplus'
      refine ⟨node, node', ?_, ?_, hnode⟩
      · simpa only [Slots.children, List.map_cons, List.foldlM_cons, hok, bind, Except.bind, hplus]
          using hrest
      · simpa only [Slots.children, List.map_cons, List.foldlM_cons, hok', bind, Except.bind,
          hplus'] using hrest'

/-- The coefficient of an operand is one of the product. -/
theorem exists_combineFactors_smul (hmode : mode.numeric = false) (ha : Canonical .proper a)
    (hb : Canonical .proper b) (hbnumber : b.isNumber = false) :
    ∀ᶠ depth in Filter.atTop, ∃ node node', combineFactors mode depth a b = .ok node ∧
      combineFactors mode depth a (b.withCoeff 1) = .ok node' ∧ Canonical .proper node ∧
      Canonical .proper node' ∧ node.linear = b.coeff • node'.linear := by
  have hrules := Discipline.proper_admissible mode
  obtain ⟨node, hsettles, hnode⟩ := reaches_multiply hrules hmode ha hb
  obtain ⟨node', hsettles', hnode'⟩ := reaches_multiply hrules hmode ha hb.withCoeff_one
  filter_upwards [hsettles.late, hsettles'.late, Filter.eventually_ge_atTop 1]
    with depth hok hok' hdepth
  obtain ⟨depth, rfl⟩ := Nat.exists_eq_add_of_le' hdepth
  refine ⟨node, node', hok, hok', hnode, hnode', ?_⟩
  cases hanumber : a.isNumber with
  | true =>
      obtain ⟨v, rfl⟩ := exists_eq_number hanumber
      rw [(combineFactors_number mode depth v _).2] at hok hok'
      obtain rfl := Except.ok.inj hok
      obtain rfl := Except.ok.inj hok'
      rw [linear_scale, linear_scale, smul_comm, ← hb.linear_eq_smul]
  | false =>
      rw [combineFactors_eq_ite mode depth hanumber hbnumber] at hok
      rw [combineFactors_eq_ite mode depth hanumber (by rwa [isNumber_withCoeff])] at hok'
      simp only [group_withCoeff, withCoeff_withCoeff, coeff_withCoeff, mul_one] at hok'
      generalize (if a.group.rank < b.group.rank then
        multiplyContent mode depth (b.withCoeff 1) (a.withCoeff 1)
        else multiplyContent mode depth (a.withCoeff 1) (b.withCoeff 1)) = content at hok hok'
      cases content with
      | error fault => cases hok
      | ok content =>
          obtain rfl := Except.ok.inj hok
          obtain rfl := Except.ok.inj hok'
          rw [linear_scale, linear_scale, smul_smul, mul_comm]

/-- The terms of a sum times an expression, and times its content. -/
theorem exists_expand_smul (hmode : mode.numeric = false) (hslots : ∀ slot ∈ slots,
    Canonical .proper slot.2) (hb : Canonical .proper b) (hbnumber : b.isNumber = false) :
    ∀ᶠ depth in Filter.atTop, ∃ node node', expand mode depth slots b = .ok node ∧
      expand mode depth slots (b.withCoeff 1) = .ok node' ∧
      node.linear = b.coeff • node'.linear := by
  have hterms : ∀ᶠ depth in Filter.atTop, ∀ slot ∈ {slot | slot ∈ slots}, ∃ node node',
      combineFactors mode depth slot.2 b = .ok node ∧
      combineFactors mode depth slot.2 (b.withCoeff 1) = .ok node' ∧ Canonical .proper node ∧
      Canonical .proper node' ∧ node.linear = b.coeff • node'.linear :=
    (Filter.eventually_all_finite (List.finite_toSet slots)).mpr fun slot hslot =>
      exists_combineFactors_smul hmode (hslots slot hslot) hb hbnumber
  filter_upwards [hterms] with depth hdepth
  obtain ⟨node, node', hok, hok', -, -, hlinear⟩ := exists_foldlM_smul
    (combineFactors mode depth · b) (combineFactors mode depth · (b.withCoeff 1)) b.coeff hdepth
    (.number 0) (.number 0) (by simp)
  exact ⟨node, node', hok, hok', hlinear⟩

/-- The terms of a sum times a constant. -/
theorem exists_expand_number (mode : Mode) (fuel : Nat) (v : Rat)
    (hslots : ∀ slot ∈ slots, Canonical .proper slot.2) :
    ∃ node, expand mode (fuel + 1) slots (.number v) = .ok node ∧ Canonical .proper node ∧
      node.linear = v • slots.linear := by
  have hrules := (Discipline.proper_admissible .exact).toHereditary
  obtain ⟨node, node', hok, hok', hnode, -, hlinear⟩ := exists_foldlM_smul
    (combineFactors mode (fuel + 1) · (.number v)) .ok v
    (fun slot hslot => ⟨scale v slot.2, slot.2, (combineFactors_number mode fuel v slot.2).1, rfl,
      canonical_scale_any hrules v (hslots slot hslot), hslots slot hslot, linear_scale v slot.2⟩)
    (.number 0) (.number 0) (by simp)
  have hplus : ∀ total, Canonical .proper total → ∀ slot ∈ slots,
      Totals .proper (plus total slot.2) (total.linear + slot.2.linear) :=
    fun _ htotal slot hslot => totals_plus hrules.constant htotal (hslots slot hslot)
  obtain ⟨total, htotal, -, hsum⟩ := totals_foldlM hplus (.number 0)
  obtain rfl : total = node' := Except.ok.inj (htotal.symm.trans hok')
  refine ⟨node, hok, hnode, ?_⟩
  rw [hlinear, hsum, linear_number, Finsupp.single_zero, zero_add]

end Reduce

namespace Arithmetic

variable {mode : Mode} {p : Rat} {a b sum whole : Expr}

/-! ## Operations -/

/-- The fractional part of a power of a sum. -/
theorem pow_fraction (hs : Canonical .proper sum) (hsum : sum.isExpandedSum = true)
    (hp : 0 < p ∧ p < 1) : pow mode sum (.number p) = .ok (sum.withPower p) := by
  refine pow_of_isPlain (isPlain_of_isExpandedSum hs hsum)
    ⟨hp.1.ne', fun hnamed => ?_, fun _ => .inr hp⟩
  cases sum <;> first | cases hnamed | cases hsum

theorem late_expansion (hs : Canonical .proper sum) (hsum : sum.isExpandedSum = true) {n : Nat}
    (hn : 1 ≤ n)
    (hlate : ∀ᶠ depth in Filter.atTop, raiseTo mode depth sum (.number n) = .ok whole) :
    ∀ᶠ depth in Filter.atTop, expansion mode depth sum n = .ok whole := by
  filter_upwards [(Filter.tendsto_add_atTop_nat 2).eventually hlate] with depth hdepth
  rwa [raiseTo_plain (isPlain_of_isExpandedSum hs hsum) (Nat.cast_ne_zero.mpr (by omega)),
    raiseBase_natCast hsum hn] at hdepth

/-- An expansion within some depth of calls is the power. -/
theorem pow_of_expansion (hmode : mode.numeric = false) (hs : Canonical .proper sum)
    (hsum : sum.isExpandedSum = true) {n : Nat} (hn : 1 ≤ n) {fuel : Nat}
    (h : expansion mode fuel sum n = .ok whole) : pow mode sum (.number n) = .ok whole := by
  have hdefined : ¬ IsUndefined sum (.number n) := fun ⟨_, hzero, _⟩ => by
    rw [hzero] at hsum
    cases hsum
  obtain ⟨node, hsettles, -⟩ :=
    reaches_raiseTo (Discipline.proper_admissible mode) hmode hs (.number n) hdefined
  have hraise : raiseTo mode (fuel + 2) sum (.number n) = .ok whole := by
    rwa [raiseTo_plain (isPlain_of_isExpandedSum hs hsum) (Nat.cast_ne_zero.mpr (by omega)),
      raiseBase_natCast hsum hn]
  rcases hsettles.early (fuel + 2) with hexhausted | hnode
  · cases hexhausted.symm.trans hraise
  · rw [pow, settled_eq hsettles (by simp), guarded_ok, ← hnode, hraise]

/-- A power above one distributes the expansion over the fractional atom. -/
theorem late_distribute (hs : Canonical .proper sum) (hsum : sum.isExpandedSum = true)
    (hp : 1 < p) (hinteger : (p.floor.toNat : Rat) ≠ p) {node : Expr}
    (hwhole : ∀ᶠ depth in Filter.atTop, expansion mode depth sum p.floor.toNat = .ok whole)
    (hlate : ∀ᶠ depth in Filter.atTop, raiseTo mode depth sum (.number p) = .ok node) :
    ∀ᶠ depth in Filter.atTop,
      distribute mode depth whole (sum.withPower (p - p.floor.toNat)) = .ok node := by
  filter_upwards [hwhole, (Filter.tendsto_add_atTop_nat 2).eventually hlate]
    with depth hdepth hpower
  rw [raiseTo_plain (isPlain_of_isExpandedSum hs hsum) (by linarith),
    raiseBase_expandedSum hsum hp, hdepth] at hpower
  simpa only [bind, Except.bind, hinteger, if_false] using hpower

/-- An expansion that is a sum is multiplied by the atom. -/
theorem linear_eq_of_expanded (hwhole : Canonical .proper whole)
    (hexpanded : whole.isExpandedSum = true) (hb : b.isSum = true)
    (hbsum : b.isExpandedSum = false) (hcoeff : b.coeff = 1) {node product : Expr}
    (hnode : ∀ᶠ depth in Filter.atTop, distribute mode depth whole b = .ok node)
    (hproduct : ∀ᶠ depth in Filter.atTop, combineFactors mode depth whole b = .ok product) :
    node.linear = product.linear := by
  obtain ⟨depth, hsmall, hlarge⟩ := ((Filter.tendsto_add_atTop_nat 2).eventually hnode |>.and
    ((Filter.tendsto_add_atTop_nat 4).eventually hproduct)).exists
  have hgroup : b.group ≠ .product := by
    cases b <;> simp_all [isSum, group]
  have hone := hwhole.coeff_of_isExpandedSum hexpanded
  rw [(distribute_eq mode (depth + 1) b (isExpandedSum_iff.mp hexpanded).1).1 hexpanded] at hsmall
  rw [combineFactors_expandedSum mode depth hexpanded hone hbsum (isNumber_of_isSum hb)
    (.inl ⟨rfl, rfl⟩), if_neg hgroup, withCoeff_of_coeff_eq hcoeff, expand, hsmall] at hlarge
  obtain rfl := Except.ok.inj hlarge
  rw [linear_scale, hone, hcoeff, mul_one, one_smul]

/-- An expansion that is no sum multiplies the terms of the atom. -/
theorem linear_eq_of_collapsed (hmode : mode.numeric = false) (hs : Canonical .proper sum)
    (hsum : sum.isExpandedSum = true) (hwhole : Canonical .proper whole)
    (hcollapsed : whole.isExpandedSum = false) {node product : Expr}
    (hnode : ∀ᶠ depth in Filter.atTop, expand mode depth sum.slots whole = .ok node)
    (hproduct : ∀ᶠ depth in Filter.atTop, combineFactors mode depth whole sum = .ok product) :
    node.linear = product.linear := by
  cases hnumber : whole.isNumber with
  | true =>
      obtain ⟨v, rfl⟩ := exists_eq_number hnumber
      obtain ⟨depth, hsmall, hlarge⟩ := ((Filter.tendsto_add_atTop_nat 1).eventually hnode |>.and
        ((Filter.tendsto_add_atTop_nat 1).eventually hproduct)).exists
      obtain ⟨node', hok, -, hlinear⟩ := exists_expand_number mode depth v hs.slots
      obtain rfl := Except.ok.inj (hok.symm.trans hsmall)
      rw [(combineFactors_number mode depth v sum).2] at hlarge
      obtain rfl := Except.ok.inj hlarge
      rw [hlinear, linear_scale, linear_of_isExpandedSum hsum]
  | false =>
      have hsmul := exists_expand_smul hmode hs.slots hwhole hnumber
      obtain ⟨depth, hsmall, hlarge⟩ := (((Filter.tendsto_add_atTop_nat
        (if whole.group = .product then 0 else 1)).eventually (hnode.and hsmul)).and
        ((Filter.tendsto_add_atTop_nat 4).eventually hproduct)).exists
      obtain ⟨hnode, node', content, hok, hok', hlinear⟩ := hsmall
      obtain rfl := Except.ok.inj (hok.symm.trans hnode)
      have hone := hs.coeff_of_isExpandedSum hsum
      rw [combineFactors_expandedSum mode depth hsum hone hcollapsed hnumber (.inr ⟨rfl, rfl⟩)]
        at hlarge
      have hdepth : (if whole.group = .product then depth else depth + 1) =
          depth + if whole.group = .product then 0 else 1 := by split_ifs <;> rfl
      rw [hdepth, hok'] at hlarge
      obtain rfl := Except.ok.inj hlarge
      rw [hlinear, linear_scale, hone, mul_one]

/-! ## Main result -/

/-- A power of a sum with a fractional exponent above one is the product of the expansion and
the fractional atom if the expansion is a sum, and the product of the expansion and the sum
itself otherwise. -/
theorem agree_pow_sum (hmode : mode.numeric = false) (hs : Canonical .proper sum)
    (hsum : sum.isExpandedSum = true) (hp : 1 < p) (hinteger : (p.floor : Rat) ≠ p) :
    ∃ whole, pow mode sum (.number p.floor) = .ok whole ∧ Agree (pow mode sum (.number p))
      (if whole.isExpandedSum then do multiply mode whole (← pow mode sum (.number (p - p.floor)))
        else multiply mode whole sum) := by
  have hfloor : 1 ≤ p.floor := Rat.le_floor_iff.mpr (by exact_mod_cast hp.le)
  have hcast : (p.floor.toNat : Rat) = p.floor := by
    exact_mod_cast Int.toNat_of_nonneg (by omega : 0 ≤ p.floor)
  have hfraction := sub_floor_toNat hp (hcast ▸ hinteger)
  have hdefined : ∀ q, ¬ IsUndefined sum (.number q) := fun _ ⟨_, hzero, _⟩ => by
    rw [hzero] at hsum
    cases hsum
  obtain ⟨whole, hwhole, hcanonical, hlate⟩ :=
    exists_pow_late hmode hs (.number (p.floor : Rat)) (hdefined _)
  obtain ⟨node, hnode, hnodecanonical, hnodelate⟩ :=
    exists_pow_late hmode hs (.number p) (hdefined p)
  rw [← hcast] at hlate
  have hdistribute := late_distribute hs hsum hp (hcast ▸ hinteger)
    (late_expansion hs hsum (by omega) hlate) hnodelate
  have hatom : (sum.withPower (p - p.floor.toNat)).isSum = true :=
    (isSum_withPower _ sum).trans (isExpandedSum_iff.mp hsum).1
  refine ⟨whole, hwhole, ?_⟩
  split_ifs with hexpanded
  · have hatomsum : (sum.withPower (p - p.floor.toNat)).isExpandedSum = false := by
      simpa only [isExpandedSum, hatom, Bool.true_and, beq_eq_false_iff_ne,
        degreePower_withPower hsum] using hfraction.2.ne
    have hatomcanonical : Canonical .proper (sum.withPower (p - p.floor.toNat)) :=
      canonical_withPower (Discipline.proper_admissible mode) hs hsum (.inr hfraction)
    obtain ⟨product, hproduct, hproductcanonical, hproductlate⟩ :=
      exists_multiply_late hmode hcanonical hatomcanonical
    rw [hnode, pow_fraction hs hsum (hcast ▸ hfraction), ← hcast]
    refine ⟨node, product, rfl, hproduct,
      (hnodecanonical.equals_iff_linear hproductcanonical).mpr ?_⟩
    exact linear_eq_of_expanded hcanonical hexpanded hatom hatomsum
      ((coeff_withPower _ sum).trans (hs.coeff_of_isExpandedSum hsum)) hdistribute hproductlate
  · obtain ⟨product, hproduct, hproductcanonical, hproductlate⟩ :=
      exists_multiply_late hmode hcanonical hs
    refine ⟨node, product, hnode, hproduct,
      (hnodecanonical.equals_iff_linear hproductcanonical).mpr ?_⟩
    refine linear_eq_of_collapsed hmode hs hsum hcanonical (by simpa using hexpanded) ?_
      hproductlate
    filter_upwards [(Filter.tendsto_add_atTop_nat 1).eventually hdistribute] with depth hdepth
    rwa [distribute_eq_expand mode depth hatom (by simpa using hexpanded), slots_withPower]
      at hdepth

/-- `(x + 1)^(5/2)` is the product of `x^2 + 2*x + 1` and `sqrt(x + 1)`. -/
theorem agree_pow_sum_binomial :
    let x := named "x"
    let sum := composite 1 1 [(x.additiveKey, x), (constantMark, .number 1)]
    let p : Rat := 5 / 2
    Mode.exact.numeric = false ∧ Canonical .proper sum ∧ sum.isExpandedSum = true ∧ 1 < p ∧
      (p.floor : Rat) ≠ p ∧ ∃ whole, pow .exact sum (.number p.floor) = .ok whole ∧
        Agree (pow .exact sum (.number p))
          (if whole.isExpandedSum then do
              multiply .exact whole (← pow .exact sum (.number (p - p.floor)))
            else multiply .exact whole sum) := by
  intro x sum p
  have hsum : Canonical .proper sum := .binomial trivial one_ne_zero
  have hone : 1 < p := by norm_num [p]
  have hinteger : (p.floor : Rat) ≠ p := by norm_num [p, Rat.floor_def]
  exact ⟨rfl, hsum, rfl, hone, hinteger, agree_pow_sum rfl hsum rfl hone hinteger⟩

/-- The square of `1 + i` is `2*i`, which takes the atom `sqrt(1 + i)` for the sum `1 + i`. -/
theorem not_agree_pow_sum :
    let sum := Environment.read "1 + i"
    let left := do pow .exact (← sum) (.number (5 / 2))
    let right := do
      multiply .exact (← pow .exact (← sum) (.number 2)) (← pow .exact (← sum) (.number (1 / 2)))
    Agree left (Environment.read "2*i - 2") ∧ Agree right (Environment.read "2*i*sqrt(1 + i)") ∧
      ¬ Agree left right := by
  decide +kernel

end Arithmetic

end ExactAlgebra
