import ExactAlgebra.Proofs.Canonical.Scale

/-!
# Sums of canonical expressions

A sum of canonical expressions never runs out of its budget.  It is canonical, and
its coefficients are the sums of the coefficients of its operands.
-/

namespace ExactAlgebra

namespace Expr

theorem not_isZero_of_isPowered {node : Expr} (h : node.isPowered = true) :
    node.isZero = false := by
  cases node <;> simp_all [isPowered, isZero, isAtomSum, isSum]

theorem linear_of_isZero {node : Expr} (h : node.isZero = true) : node.linear = 0 := by
  cases node <;> simp_all [isZero]

/-- Terms of one content add by their coefficients. -/
theorem linear_add_of_content {a b : Expr} (ha : a.isExpandedSum = false)
    (h : a.content = b.content) :
    a.linear + b.linear = Finsupp.single a.content (a.coeff + b.coeff) := by
  have hb : b.isExpandedSum = false := isExpandedSum_eq_of_content h ▸ ha
  rw [linear_of_not_isExpandedSum ha, linear_of_not_isExpandedSum hb, ← h,
    Finsupp.single_add]

end Expr

theorem Canonical.coeff_ne_zero_of_not_isZero {rules : Discipline} {node : Expr}
    (h : Canonical rules node) (hzero : node.isZero = false) : node.coeff ≠ 0 := by
  cases hnumber : node.isNumber with
  | false => exact h.coeff_ne_zero hnumber
  | true => cases node <;> simp_all [Expr.isNumber, Expr.isZero, Expr.coeff]

/-! ## Slots of sums -/

/-- Slots of powers of one base, however many. -/
structure IsPolynomialPart (base : Key) (terms : Slots) : Prop where
  distinct : Slots.Distinct terms
  powered : ∀ slot ∈ terms, slot.2.isPowered = true
  key : ∀ slot ∈ terms, slot.1 = slot.2.exponent.key
  base : ∀ slot ∈ terms, slot.2.additiveKey = base

/-- Slots of dissimilar terms, however many. -/
structure IsCompositePart (rules : Discipline) (terms : Slots) : Prop where
  distinct : Slots.Distinct terms
  key : ∀ slot ∈ terms, slot.1 = slot.2.additiveKey
  flat : ∀ slot ∈ terms, slot.2.IsFlat
  constant : ∀ slot ∈ terms, ∀ value, slot.2 = .number value → rules.constant value

section Parts

variable {rules : Discipline} {terms : Slots} {term : Expr} {key base : Key}

theorem IsPolynomial.part (h : IsPolynomial terms) :
    IsPolynomialPart (Expr.polynomial 1 1 terms).additiveKey terms where
  distinct := h.distinct
  powered := h.powered
  key := h.key
  base := fun _ hslot => (Reduce.additiveKey_polynomial h hslot 1).symm

theorem IsPolynomialPart.erase (h : IsPolynomialPart base terms) (key : Key) :
    IsPolynomialPart base (Slots.erase key terms) where
  distinct := h.distinct.sublist (Slots.erase_sublist _ _)
  powered := fun slot hslot => h.powered slot (Slots.mem_erase.mp hslot).1
  key := fun slot hslot => h.key slot (Slots.mem_erase.mp hslot).1
  base := fun slot hslot => h.base slot (Slots.mem_erase.mp hslot).1

theorem IsPolynomialPart.append (h : IsPolynomialPart base terms)
    (hpowered : term.isPowered = true) (hbase : term.additiveKey = base)
    (hkey : key = term.exponent.key) (hfresh : ∀ slot ∈ terms, slot.1 ≠ key) :
    IsPolynomialPart base (terms ++ [(key, term)]) where
  distinct := Slots.distinct_append_singleton h.distinct hfresh
  powered := List.forall_mem_append.mpr ⟨h.powered, List.forall_mem_singleton.mpr hpowered⟩
  key := List.forall_mem_append.mpr ⟨h.key, List.forall_mem_singleton.mpr hkey⟩
  base := List.forall_mem_append.mpr ⟨h.base, List.forall_mem_singleton.mpr hbase⟩

theorem IsPolynomialPart.isPolynomial (h : IsPolynomialPart base terms)
    (htwo : 2 ≤ terms.length) : IsPolynomial terms where
  two_le := htwo
  distinct := h.distinct
  powered := h.powered
  key := h.key
  base := fun first hfirst second hsecond => by
    rw [← Expr.additiveKey_of_isPowered (h.powered first hfirst),
      ← Expr.additiveKey_of_isPowered (h.powered second hsecond), h.base first hfirst,
      h.base second hsecond]

theorem IsComposite.part (h : IsComposite rules terms) : IsCompositePart rules terms :=
  ⟨h.distinct, h.key, h.flat, h.constant⟩

theorem IsCompositePart.erase (h : IsCompositePart rules terms) (key : Key) :
    IsCompositePart rules (Slots.erase key terms) where
  distinct := h.distinct.sublist (Slots.erase_sublist _ _)
  key := fun slot hslot => h.key slot (Slots.mem_erase.mp hslot).1
  flat := fun slot hslot => h.flat slot (Slots.mem_erase.mp hslot).1
  constant := fun slot hslot => h.constant slot (Slots.mem_erase.mp hslot).1

theorem IsCompositePart.append (h : IsCompositePart rules terms)
    (hconstant : ∀ value, value ≠ 0 → rules.constant value) (hzero : term.isZero = false)
    (hflat : term.IsFlat) (hkey : key = term.additiveKey) (hfresh : ∀ slot ∈ terms, slot.1 ≠ key) :
    IsCompositePart rules (terms ++ [(key, term)]) where
  distinct := Slots.distinct_append_singleton h.distinct hfresh
  key := List.forall_mem_append.mpr ⟨h.key, List.forall_mem_singleton.mpr hkey⟩
  flat := List.forall_mem_append.mpr ⟨h.flat, List.forall_mem_singleton.mpr hflat⟩
  constant := List.forall_mem_append.mpr ⟨h.constant, List.forall_mem_singleton.mpr (by
    rintro value rfl
    exact hconstant value (by simpa [Expr.isZero] using hzero))⟩

theorem IsCompositePart.isComposite (h : IsCompositePart rules terms)
    (htwo : 2 ≤ terms.length) : IsComposite rules terms :=
  ⟨htwo, h.distinct, h.key, h.flat, h.constant⟩

end Parts

namespace Reduce

open ExactAlgebra.Expr

variable {rules : Discipline} {a b node old term : Expr} {key : Key} {terms : Slots}

/-! ## Outcomes -/

/-- The outcome is canonical and has the given coefficients. -/
def Totals (rules : Discipline) (outcome : Except Fault Expr) (total : Key →₀ Rat) : Prop :=
  ∃ node, outcome = .ok node ∧ Canonical rules node ∧ node.linear = total

/-- The outcome is zero, or it fits a slot. -/
def FitsSlot (key : Key) (node : Expr) : Prop :=
  node.isZero = true ∨ (node.isZero = false ∧ node.additiveKey = key ∧ node.IsFlat)

/-- `Totals`, for terms that meet in one slot. -/
def MergesInto (rules : Discipline) (key : Key) (outcome : Except Fault Expr)
    (total : Key →₀ Rat) : Prop :=
  ∃ node, outcome = .ok node ∧ Canonical rules node ∧ node.linear = total ∧ FitsSlot key node

theorem MergesInto.totals {outcome : Except Fault Expr} {total : Key →₀ Rat}
    (h : MergesInto rules key outcome total) : Totals rules outcome total := by
  obtain ⟨node, hok, hnode, hlinear, -⟩ := h
  exact ⟨node, hok, hnode, hlinear⟩

/-! ## Pairs of terms -/

/-- The slots of two terms with different exponents. -/
theorem isPolynomial_pair (ha : a.isPowered = true) (hb : b.isPowered = true)
    (hbase : a.baseKey = b.baseKey) (hpower : a.degreePower ≠ b.degreePower) :
    IsPolynomial [(a.exponent.key, a), (b.exponent.key, b)] where
  two_le := le_rfl
  distinct := by
    simp [key_exponent_of_isPowered ha, key_exponent_of_isPowered hb, Ne.symm hpower]
  powered := by simp [ha, hb]
  key := by simp
  base := by simp [hbase]

theorem isComposite_pair (ha : a.IsFlat) (hb : b.IsFlat) (hkey : a.additiveKey ≠ b.additiveKey)
    (hconstant : ∀ value, value ≠ 0 → rules.constant value)
    (hazero : a.isZero = false) (hbzero : b.isZero = false) :
    IsComposite rules [(a.additiveKey, a), (b.additiveKey, b)] where
  two_le := le_rfl
  distinct := by simp [hkey.symm]
  key := by simp
  flat := List.forall_mem_cons.mpr ⟨ha, List.forall_mem_singleton.mpr hb⟩
  constant := by
    have hvalue : ∀ node : Expr, node.isZero = false →
        ∀ value, node = .number value → rules.constant value := by
      rintro _ hzero value rfl
      exact hconstant value (by simpa [isZero] using hzero)
    simpa using ⟨hvalue a hazero, hvalue b hbzero⟩

theorem pairTerms_of_ne (hkey : a.additiveKey ≠ b.additiveKey) :
    pairTerms a b = .composite 1 1 [(a.additiveKey, a), (b.additiveKey, b)] := by
  rw [pairTerms, if_neg hkey, Slots.ofList_pair hkey]

theorem totals_pairTerms_of_ne (hconstant : ∀ value, value ≠ 0 → rules.constant value)
    (ha : Canonical rules a) (hb : Canonical rules b) (haflat : a.IsFlat) (hbflat : b.IsFlat)
    (hazero : a.isZero = false) (hbzero : b.isZero = false)
    (hkey : a.additiveKey ≠ b.additiveKey) :
    Totals rules (.ok (pairTerms a b)) (a.linear + b.linear) := by
  refine ⟨_, rfl, ?_, ?_⟩
  · rw [pairTerms_of_ne hkey]
    exact .expandedComposite (isComposite_pair haflat hbflat hkey hconstant hazero hbzero)
      (by simpa using ⟨ha, hb⟩)
  · simp [pairTerms_of_ne hkey]

/-- Two terms of one base and of different exponents. -/
theorem mergesInto_pairTerms (ha : Canonical rules a) (hb : Canonical rules b)
    (hapowered : a.isPowered = true) (hbpowered : b.isPowered = true)
    (hkey : a.additiveKey = b.additiveKey) (hcontent : a.content ≠ b.content) :
    MergesInto rules a.additiveKey (.ok (pairTerms a b)) (a.linear + b.linear) := by
  have hbase : a.baseKey = b.baseKey := by
    rwa [additiveKey_of_isPowered hapowered, additiveKey_of_isPowered hbpowered] at hkey
  have hpower : a.degreePower ≠ b.degreePower := fun hpower =>
    hcontent (content_eq_of_baseKey hapowered hbpowered hpower hbase)
  have hslots := isPolynomial_pair hapowered hbpowered hbase hpower
  have hpair : pairTerms a b = .polynomial 1 1 [(a.exponent.key, a), (b.exponent.key, b)] := by
    rw [pairTerms, if_pos hkey, Slots.ofList_of_distinct hslots.distinct]
  rw [hpair]
  refine ⟨_, rfl, .expandedPolynomial hslots (by simpa using ⟨ha, hb⟩), by simp, .inr ⟨rfl, ?_, ?_⟩⟩
  · exact additiveKey_polynomial hslots List.mem_cons_self 1
  · rintro ⟨hgroup, -⟩
    cases hgroup

/-! ## Order -/

/-- An expanded sum comes first, and of two expanded sums the structurally larger. -/
theorem orderTerms_cases (a b : Expr) :
    ∃ x y, ((x = a ∧ y = b) ∨ (x = b ∧ y = a)) ∧ orderTerms a b = (x, y) ∧
      x.isExpandedSum = (a.isExpandedSum || b.isExpandedSum) ∧
      (y.isExpandedSum = true → y.group.rank ≤ x.group.rank) := by
  have hfirst : ∃ x y, ((x = a ∧ y = b) ∨ (x = b ∧ y = a)) ∧ y.group.rank ≤ x.group.rank ∧
      orderTerms a b = if y.isExpandedSum && !x.isExpandedSum then (y, x) else (x, y) := by
    by_cases hrank : a.group.rank < b.group.rank
    · exact ⟨b, a, .inr ⟨rfl, rfl⟩, hrank.le, by simp [orderTerms, hrank]⟩
    · exact ⟨a, b, .inl ⟨rfl, rfl⟩, Nat.le_of_not_lt hrank, by simp [orderTerms, hrank]⟩
  obtain ⟨x, y, hxy, hrank, horder⟩ := hfirst
  have hsum : (x.isExpandedSum || y.isExpandedSum) = (a.isExpandedSum || b.isExpandedSum) := by
    rcases hxy with ⟨rfl, rfl⟩ | ⟨rfl, rfl⟩
    · rfl
    · exact Bool.or_comm _ _
  cases hx : x.isExpandedSum with
  | true => exact ⟨x, y, hxy, by simpa [hx] using horder, by simp [← hsum, hx], fun _ => hrank⟩
  | false =>
      cases hy : y.isExpandedSum with
      | false =>
          exact ⟨x, y, hxy, by simpa [hx, hy] using horder, by simp [← hsum, hx, hy],
            fun h => absurd (hy.symm.trans h) Bool.false_ne_true⟩
      | true =>
          exact ⟨y, x, hxy.symm.imp And.symm And.symm, by simpa [hx, hy] using horder,
            by simp [← hsum, hy], fun h => absurd (hx.symm.trans h) Bool.false_ne_true⟩

/-- Addition of two expressions that are not zero, in their order. -/
theorem combineTerms_cases (fuel : Nat) (hazero : a.isZero = false) (hbzero : b.isZero = false) :
    ∃ x y, ((x = a ∧ y = b) ∨ (x = b ∧ y = a)) ∧
      x.isExpandedSum = (a.isExpandedSum || b.isExpandedSum) ∧
      (y.isExpandedSum = true → y.group.rank ≤ x.group.rank) ∧
      combineTerms (fuel + 1) a b =
        if x.isExpandedSum then
          if y.isExpandedSum then
            y.slots.children.foldlM (fun total term => combineTerms fuel total term) x
          else insertTerm fuel x y
        else if x.content = y.content then
          .ok (if x.coeff + y.coeff = 0 then .number 0 else x.withCoeff (x.coeff + y.coeff))
        else .ok (pairTerms x y) := by
  by_cases hnumbers : a.isNumber = true ∧ b.isNumber = true
  · refine ⟨a, b, .inl ⟨rfl, rfl⟩, ?_⟩
    obtain ⟨x, rfl⟩ : ∃ x, a = .number x := by cases a <;> simp_all [isNumber]
    obtain ⟨y, rfl⟩ : ∃ y, b = .number y := by cases b <;> simp_all [isNumber]
    rw [combineTerms, hazero, hbzero]
    by_cases hsum : x + y = 0 <;>
      simp [isExpandedSum, isSum, content, coeff, withCoeff, hsum]
  · obtain ⟨x, y, hxy, horder, hsum, hrank⟩ := orderTerms_cases a b
    refine ⟨x, y, hxy, hsum, hrank, ?_⟩
    rw [combineTerms, hazero, hbzero]
    · simp only [Bool.false_eq_true, if_false, horder]
    · rintro u v rfl rfl
      exact hnumbers ⟨rfl, rfl⟩

/-- Two terms in either order: of one content, or side by side. -/
theorem combineTerms_of_not_isExpandedSum (fuel : Nat) (ha : a.isExpandedSum = false)
    (hb : b.isExpandedSum = false) (hazero : a.isZero = false) (hbzero : b.isZero = false) :
    ∃ x y, ((x = a ∧ y = b) ∨ (x = b ∧ y = a)) ∧
      combineTerms (fuel + 1) a b = .ok (
        if x.content = y.content then
          if x.coeff + y.coeff = 0 then .number 0 else x.withCoeff (x.coeff + y.coeff)
        else pairTerms x y) := by
  obtain ⟨x, y, hxy, hsum, -, hstep⟩ := combineTerms_cases fuel hazero hbzero
  refine ⟨x, y, hxy, ?_⟩
  rw [hstep, hsum, ha, hb, Bool.or_self, if_neg Bool.false_ne_true]
  split <;> rfl

/-! ## Zero -/

theorem combineTerms_of_isZero (fuel : Nat) (h : a.isZero = true) :
    combineTerms (fuel + 1) a b = .ok b := by
  obtain ⟨value, rfl⟩ : ∃ value, a = .number value := by cases a <;> simp_all [isZero]
  cases b <;> simp [combineTerms, h]

theorem combineTerms_of_isZero_right (fuel : Nat) (ha : a.isZero = false)
    (h : b.isZero = true) : combineTerms (fuel + 1) a b = .ok a := by
  obtain ⟨value, rfl⟩ : ∃ value, b = .number value := by cases b <;> simp_all [isZero]
  cases a <;> simp [combineTerms, ha, h]

theorem fitsSlot_of_not_isExpandedSum (h : node.isExpandedSum = false) :
    FitsSlot node.additiveKey node := by
  cases hzero : node.isZero with
  | true => exact .inl hzero
  | false => exact .inr ⟨hzero, rfl, isFlat_of_not_isExpandedSum h⟩

/-- Two terms of one content. -/
theorem combineTerms_of_content (fuel : Nat) (ha : a.isExpandedSum = false)
    (hcontent : a.content = b.content) (hazero : a.isZero = false) (hbzero : b.isZero = false) :
    ∃ x, (x = a ∨ x = b) ∧ combineTerms (fuel + 1) a b =
      .ok (if a.coeff + b.coeff = 0 then .number 0 else x.withCoeff (a.coeff + b.coeff)) := by
  have hb : b.isExpandedSum = false := isExpandedSum_eq_of_content hcontent ▸ ha
  obtain ⟨x, y, hxy, hstep⟩ := combineTerms_of_not_isExpandedSum fuel ha hb hazero hbzero
  rcases hxy with ⟨rfl, rfl⟩ | ⟨rfl, rfl⟩
  · exact ⟨x, .inl rfl, by rw [hstep, if_pos hcontent]⟩
  · exact ⟨x, .inr rfl, by rw [hstep, if_pos hcontent.symm, add_comm]⟩

theorem not_isZero_of_isExpandedSum (h : node.isExpandedSum = true) : node.isZero = false := by
  cases node <;> simp_all [isExpandedSum, isSum, isZero]

/-- An expanded sum and a term, in either order. -/
theorem combineTerms_of_isExpandedSum (fuel : Nat) (hasum : a.isExpandedSum = true)
    (hbsum : b.isExpandedSum = false) (hbzero : b.isZero = false) :
    combineTerms (fuel + 1) a b = insertTerm fuel a b ∧
      combineTerms (fuel + 1) b a = insertTerm fuel a b := by
  have hazero := not_isZero_of_isExpandedSum hasum
  constructor
  · obtain ⟨x, y, ⟨rfl, rfl⟩ | ⟨rfl, rfl⟩, hsum, -, hstep⟩ := combineTerms_cases fuel hazero hbzero
    · rw [hstep, hasum, hbsum, if_pos rfl, if_neg Bool.false_ne_true]
    · simp [hasum, hbsum] at hsum
  · obtain ⟨x, y, ⟨rfl, rfl⟩ | ⟨rfl, rfl⟩, hsum, -, hstep⟩ := combineTerms_cases fuel hbzero hazero
    · simp [hasum, hbsum] at hsum
    · rw [hstep, hasum, hbsum, if_pos rfl, if_neg Bool.false_ne_true]

/-! ## Single terms -/

/-- Terms of one content add up to a term of this content, or they cancel. -/
theorem mergesInto_of_content (ha : Canonical rules a) (hasum : a.isExpandedSum = false)
    (hcontent : a.content = b.content) :
    MergesInto rules a.additiveKey
      (.ok (if a.coeff + b.coeff = 0 then .number 0 else a.withCoeff (a.coeff + b.coeff)))
      (a.linear + b.linear) := by
  have hlinear := linear_add_of_content hasum hcontent
  by_cases hsum : a.coeff + b.coeff = 0
  · rw [if_pos hsum]
    exact ⟨_, rfl, .number 0, by simp [hlinear, hsum], .inl rfl⟩
  · rw [if_neg hsum]
    have hmergedsum : (a.withCoeff (a.coeff + b.coeff)).isExpandedSum = false := by
      rwa [isExpandedSum_withCoeff]
    have hmerged := fitsSlot_of_not_isExpandedSum hmergedsum
    rw [additiveKey_withCoeff] at hmerged
    refine ⟨_, rfl, ha.withCoeff hasum hsum, ?_, hmerged⟩
    rw [linear_of_not_isExpandedSum (by simpa using hasum), content_withCoeff, coeff_withCoeff,
      hlinear]

/-- Two terms of one slot, in their order. -/
theorem mergesInto_of_ordered (ha : Canonical rules a) (hb : Canonical rules b)
    (hasum : a.isExpandedSum = false) (hbsum : b.isExpandedSum = false)
    (hkey : a.additiveKey = b.additiveKey) :
    MergesInto rules a.additiveKey
      (.ok (if a.content = b.content then
        if a.coeff + b.coeff = 0 then .number 0 else a.withCoeff (a.coeff + b.coeff)
      else pairTerms a b)) (a.linear + b.linear) := by
  by_cases hcontent : a.content = b.content
  · rw [if_pos hcontent]
    exact mergesInto_of_content ha hasum hcontent
  · rw [if_neg hcontent]
    have hpowered := isPowered_eq_of_additiveKey hasum hbsum hkey
    cases hapowered : a.isPowered with
    | true => exact mergesInto_pairTerms ha hb hapowered (hpowered ▸ hapowered) hkey hcontent
    | false =>
        rw [additiveKey_of_not_isPowered hapowered hasum,
          additiveKey_of_not_isPowered (hpowered ▸ hapowered) hbsum] at hkey
        exact absurd hkey hcontent

/-- Two terms of one slot. -/
theorem mergesInto_of_not_isExpandedSum (fuel : Nat) (ha : Canonical rules a)
    (hb : Canonical rules b) (hasum : a.isExpandedSum = false) (hbsum : b.isExpandedSum = false)
    (hkey : a.additiveKey = b.additiveKey) :
    MergesInto rules a.additiveKey (combineTerms (fuel + 1) a b) (a.linear + b.linear) := by
  cases hazero : a.isZero with
  | true =>
      rw [combineTerms_of_isZero fuel hazero, linear_of_isZero hazero, zero_add, hkey]
      exact ⟨b, rfl, hb, rfl, fitsSlot_of_not_isExpandedSum hbsum⟩
  | false =>
      cases hbzero : b.isZero with
      | true =>
          rw [combineTerms_of_isZero_right fuel hazero hbzero, linear_of_isZero hbzero, add_zero]
          exact ⟨a, rfl, ha, rfl, fitsSlot_of_not_isExpandedSum hasum⟩
      | false =>
          obtain ⟨x, y, hxy, hstep⟩ :=
            combineTerms_of_not_isExpandedSum fuel hasum hbsum hazero hbzero
          rw [hstep]
          rcases hxy with ⟨rfl, rfl⟩ | ⟨rfl, rfl⟩
          · exact mergesInto_of_ordered ha hb hasum hbsum hkey
          · rw [hkey, add_comm y.linear]
            exact mergesInto_of_ordered hb ha hbsum hasum hkey.symm

/-- Two terms. -/
theorem totals_of_not_isExpandedSum (hconstant : ∀ value, value ≠ 0 → rules.constant value)
    (fuel : Nat) (ha : Canonical rules a) (hb : Canonical rules b)
    (hasum : a.isExpandedSum = false) (hbsum : b.isExpandedSum = false) :
    Totals rules (combineTerms (fuel + 1) a b) (a.linear + b.linear) := by
  by_cases hkey : a.additiveKey = b.additiveKey
  · exact (mergesInto_of_not_isExpandedSum fuel ha hb hasum hbsum hkey).totals
  cases hazero : a.isZero with
  | true =>
      rw [combineTerms_of_isZero fuel hazero, linear_of_isZero hazero, zero_add]
      exact ⟨b, rfl, hb, rfl⟩
  | false =>
      cases hbzero : b.isZero with
      | true =>
          rw [combineTerms_of_isZero_right fuel hazero hbzero, linear_of_isZero hbzero, add_zero]
          exact ⟨a, rfl, ha, rfl⟩
      | false =>
          obtain ⟨x, y, hxy, hstep⟩ :=
            combineTerms_of_not_isExpandedSum fuel hasum hbsum hazero hbzero
          have haflat := isFlat_of_not_isExpandedSum hasum
          have hbflat := isFlat_of_not_isExpandedSum hbsum
          have hcontent : x.content ≠ y.content := by
            intro hcontent
            rcases hxy with ⟨rfl, rfl⟩ | ⟨rfl, rfl⟩
            · exact hkey (additiveKey_eq_of_content hasum hcontent)
            · exact hkey (additiveKey_eq_of_content hbsum hcontent).symm
          rw [hstep, if_neg hcontent]
          rcases hxy with ⟨rfl, rfl⟩ | ⟨rfl, rfl⟩
          · exact totals_pairTerms_of_ne hconstant ha hb haflat hbflat hazero hbzero hkey
          · rw [add_comm y.linear]
            exact totals_pairTerms_of_ne hconstant hb ha hbflat haflat hbzero hazero
              (Ne.symm hkey)

/-! ## A polynomial and a term -/

/-- A polynomial, or the only term left of it. -/
theorem mergesInto_collapse_polynomial (h : IsPolynomialPart key terms) (hne : terms ≠ [])
    (hterms : ∀ slot ∈ terms, Canonical rules slot.2) :
    MergesInto rules key (.ok (collapse (.polynomial 1 1 terms))) terms.linear := by
  match terms, hne with
  | [(slotKey, child)], _ =>
      have hchild := not_isExpandedSum_of_isPowered (h.powered _ List.mem_cons_self)
      refine ⟨child, rfl, hterms _ List.mem_cons_self, by simp, ?_⟩
      rw [← h.base _ List.mem_cons_self]
      exact fitsSlot_of_not_isExpandedSum hchild
  | first :: second :: rest, _ =>
      have hslots := h.isPolynomial (by simp)
      refine ⟨_, rfl, .expandedPolynomial hslots hterms, by simp [collapse], .inr ⟨rfl, ?_, ?_⟩⟩
      · rw [← h.base first List.mem_cons_self]
        exact additiveKey_polynomial hslots List.mem_cons_self 1
      · rintro ⟨hgroup, -⟩
        cases hgroup

theorem collapse_polynomial_of_two_le (coeff power : Rat) (htwo : 2 ≤ terms.length) :
    collapse (.polynomial coeff power terms) = .polynomial coeff power terms := by
  match terms, htwo with
  | first :: second :: rest, _ => rfl

/-- A polynomial with another coefficient for one of its terms. -/
theorem mergesInto_update_polynomial (hslots : IsPolynomial terms)
    (hterms : ∀ slot ∈ terms, Canonical rules slot.2) (hmem : (key, old) ∈ terms)
    (hnode : Canonical rules node) (hcontent : node.content = old.content) (total : Rat) :
    MergesInto rules (polynomial 1 1 terms).additiveKey
      (.ok (collapse (.polynomial 1 1
        (if total = 0 then Slots.erase key terms
          else Slots.erase key terms ++ [(key, node.withCoeff total)]))))
      ((Slots.erase key terms).linear + Finsupp.single old.content total) := by
  have hrest := hslots.part.erase key
  have hrestterms : ∀ slot ∈ Slots.erase key terms, Canonical rules slot.2 :=
    fun slot hslot => hterms slot (Slots.mem_erase.mp hslot).1
  have holdpowered : old.isPowered = true := hslots.powered _ hmem
  by_cases htotal : total = 0
  · rw [if_pos htotal, htotal, Finsupp.single_zero, add_zero]
    refine mergesInto_collapse_polynomial hrest ?_ hrestterms
    rintro hnil
    have := Slots.length_erase hslots.distinct hmem
    have := hslots.two_le
    simp only [hnil, List.length_nil] at *
    omega
  · rw [if_neg htotal]
    have hpowered : node.isPowered = true := by rw [isPowered_eq_of_content hcontent, holdpowered]
    have hsum := not_isExpandedSum_of_isPowered hpowered
    have hbase : node.additiveKey = (polynomial 1 1 terms).additiveKey := by
      rw [additiveKey_eq_of_content hsum hcontent, additiveKey_polynomial hslots hmem]
    have hkey : key = node.exponent.key := by
      rw [key_exponent_of_isPowered hpowered, degreePower_eq_of_content hcontent,
        ← key_exponent_of_isPowered holdpowered]
      exact hslots.key _ hmem
    have hpart : IsPolynomialPart (polynomial 1 1 terms).additiveKey
        (Slots.erase key terms ++ [(key, node.withCoeff total)]) :=
      hrest.append (by rwa [isPowered_withCoeff]) (by rwa [additiveKey_withCoeff])
        (by rwa [exponent_withCoeff]) fun slot hslot => (Slots.mem_erase.mp hslot).2
    have hmerged := mergesInto_collapse_polynomial hpart (by simp)
      (List.forall_mem_append.mpr
        ⟨hrestterms, List.forall_mem_singleton.mpr (hnode.withCoeff hsum htotal)⟩)
    rwa [Slots.linear_append, Slots.linear_cons, Slots.linear_nil, add_zero,
      linear_of_not_isExpandedSum (by simpa using hsum), content_withCoeff,
      coeff_withCoeff, hcontent] at hmerged

theorem mergesInto_insertTerm_polynomial (fuel : Nat) (hslots : IsPolynomial terms)
    (hterms : ∀ slot ∈ terms, Canonical rules slot.2) (hterm : Canonical rules term)
    (hpowered : term.isPowered = true)
    (hkey : term.additiveKey = (polynomial 1 1 terms).additiveKey) :
    MergesInto rules (polynomial 1 1 terms).additiveKey
      (insertTerm (fuel + 2) (.polynomial 1 1 terms) term) (terms.linear + term.linear) := by
  have htwo := hslots.two_le
  rw [insertTerm]
  simp only [hkey, ne_eq, not_true_eq_false, if_false]
  cases hfind : Slots.find? term.exponent.key terms with
  | none =>
      have hnew := hslots.part.append hpowered hkey rfl (Slots.find?_eq_none_iff.mp hfind)
      have hmerged := mergesInto_collapse_polynomial hnew (by simp)
        (List.forall_mem_append.mpr ⟨hterms, List.forall_mem_singleton.mpr hterm⟩)
      rwa [collapse_polynomial_of_two_le _ _ (by simp; omega), Slots.linear_append,
        Slots.linear_cons, Slots.linear_nil, add_zero] at hmerged
  | some old =>
      have hmem := Slots.mem_of_find? hfind
      have hold : Canonical rules old := hterms _ hmem
      have holdpowered : old.isPowered = true := hslots.powered _ hmem
      have hbase : old.baseKey = term.baseKey := by
        rw [← additiveKey_of_isPowered holdpowered, ← additiveKey_of_isPowered hpowered, hkey]
        exact (additiveKey_polynomial hslots hmem 1).symm
      have hpower : old.degreePower = term.degreePower := by
        simpa [key_exponent_of_isPowered, hpowered, holdpowered] using
          (hslots.key _ hmem).symm
      have hcontent := content_eq_of_baseKey holdpowered hpowered hpower hbase
      have hsum := not_isExpandedSum_of_isPowered holdpowered
      obtain ⟨x, hx, hstep⟩ := combineTerms_of_content fuel hsum hcontent
        (not_isZero_of_isPowered holdpowered) (not_isZero_of_isPowered hpowered)
      have hxcanonical : Canonical rules x := by rcases hx with rfl | rfl <;> assumption
      have hxcontent : x.content = old.content := by rcases hx with rfl | rfl <;> simp [hcontent]
      have hxpowered : x.isPowered = true := by rcases hx with rfl | rfl <;> assumption
      have hmerged := mergesInto_update_polynomial hslots hterms hmem hxcanonical hxcontent
        (old.coeff + term.coeff)
      have hlinear : terms.linear + term.linear =
          (Slots.erase term.exponent.key terms).linear +
            Finsupp.single old.content (old.coeff + term.coeff) := by
        rw [Slots.linear_erase hslots.distinct hmem, add_right_comm,
          linear_add_of_content hsum hcontent, add_comm]
      simp only [hstep, hlinear]
      by_cases htotal : old.coeff + term.coeff = 0
      · have hzero : (number 0).isZero = true := rfl
        simpa only [htotal, if_true, bind, Except.bind, hzero] using hmerged
      · have hzero : (x.withCoeff (old.coeff + term.coeff)).isZero = false :=
          not_isZero_of_isPowered (by rwa [isPowered_withCoeff])
        simpa only [htotal, if_false, bind, Except.bind, hzero, Bool.false_eq_true] using hmerged

/-! ## A term and a slot -/

theorem isPowered_of_additiveKey_polynomial (hslots : IsPolynomial terms)
    (hsum : term.isExpandedSum = false)
    (hkey : term.additiveKey = (polynomial 1 1 terms).additiveKey) : term.isPowered = true := by
  match terms, hslots.two_le with
  | first :: rest, _ =>
      have hfirst := hslots.powered first List.mem_cons_self
      rw [additiveKey_polynomial hslots List.mem_cons_self] at hkey
      rwa [isPowered_eq_of_additiveKey hsum (not_isExpandedSum_of_isPowered hfirst) hkey]

/-- A term and the child of a sum in its slot. -/
theorem mergesInto_combineTerms (fuel : Nat) (hold : Canonical rules old)
    (hterm : Canonical rules term) (hflat : old.IsFlat) (hsum : term.isExpandedSum = false)
    (hkey : old.additiveKey = term.additiveKey) :
    MergesInto rules old.additiveKey (combineTerms (fuel + 3) old term)
      (old.linear + term.linear) := by
  cases holdsum : old.isExpandedSum with
  | false => exact mergesInto_of_not_isExpandedSum (fuel + 2) hold hterm holdsum hsum hkey
  | true =>
      cases hold <;> simp [isExpandedSum, isSum, degreePower] at holdsum
      case polynomial coeff power terms hshape _ hslots hterms =>
        subst holdsum
        obtain rfl := hshape.coeff_eq_one rfl
        have hpowered := isPowered_of_additiveKey_polynomial hslots hsum hkey.symm
        rw [(combineTerms_of_isExpandedSum (fuel + 2) rfl hsum
          (not_isZero_of_isPowered hpowered)).1, linear_polynomial]
        exact mergesInto_insertTerm_polynomial fuel hslots hterms hterm hpowered hkey.symm
      case composite =>
        subst holdsum
        exact absurd ⟨rfl, rfl⟩ hflat

/-! ## A sum of dissimilar terms and a term -/

/-- A sum of dissimilar terms, or the only term left of it. -/
theorem totals_collapse_composite (h : IsCompositePart rules terms)
    (hterms : ∀ slot ∈ terms, Canonical rules slot.2) :
    Totals rules (.ok (collapse (.composite 1 1 terms))) terms.linear := by
  match terms with
  | [] => exact ⟨_, rfl, .number 0, by simp [collapse]⟩
  | [(slotKey, child)] => exact ⟨child, rfl, hterms _ List.mem_cons_self, by simp⟩
  | first :: second :: rest =>
      exact ⟨_, rfl, .expandedComposite (h.isComposite (by simp)) hterms, by simp [collapse]⟩

/-- A term whose slot is free. -/
theorem totals_append_composite (hconstant : ∀ value, value ≠ 0 → rules.constant value)
    (h : IsCompositePart rules terms) (hterms : ∀ slot ∈ terms, Canonical rules slot.2)
    (hterm : Canonical rules term) (hzero : term.isZero = false) (hflat : term.IsFlat)
    (hfresh : ∀ slot ∈ terms, slot.1 ≠ term.additiveKey) (hne : terms ≠ []) :
    Totals rules (.ok (.composite 1 1 (terms ++ [(term.additiveKey, term)])))
      (terms.linear + term.linear) := by
  refine ⟨_, rfl, .expandedComposite
    ((h.append hconstant hzero hflat rfl hfresh).isComposite ?_)
    (List.forall_mem_append.mpr ⟨hterms, List.forall_mem_singleton.mpr hterm⟩), by simp⟩
  have := List.length_pos_iff.mpr hne
  simp only [List.length_append, List.length_singleton]
  omega

theorem insertTerm_polynomial_of_ne (fuel : Nat)
    (hkey : (polynomial 1 1 terms).additiveKey ≠ term.additiveKey) :
    insertTerm (fuel + 1) (.polynomial 1 1 terms) term =
      .ok (pairTerms (.polynomial 1 1 terms) term) := by
  rw [insertTerm, if_pos hkey.symm]

/-- A term beside the child of a sum in another slot. -/
theorem totals_combineTerms_of_ne (hconstant : ∀ value, value ≠ 0 → rules.constant value)
    (fuel : Nat) (hold : Canonical rules old) (hterm : Canonical rules term)
    (hflat : old.IsFlat) (hzero : term.isZero = false) (hsum : term.isExpandedSum = false)
    (hkey : old.additiveKey ≠ term.additiveKey) :
    Totals rules (combineTerms (fuel + 2) old term) (old.linear + term.linear) := by
  cases holdsum : old.isExpandedSum with
  | false => exact totals_of_not_isExpandedSum hconstant (fuel + 1) hold hterm holdsum hsum
  | true =>
      rw [(combineTerms_of_isExpandedSum (fuel + 1) holdsum hsum hzero).1]
      have hpair := totals_pairTerms_of_ne hconstant hold hterm hflat
        (isFlat_of_not_isExpandedSum hsum) (not_isZero_of_isExpandedSum holdsum) hzero hkey
      cases hold <;> simp [isExpandedSum, isSum, degreePower] at holdsum
      case polynomial coeff power terms hshape _ hslots hterms =>
        subst holdsum
        obtain rfl := hshape.coeff_eq_one rfl
        rwa [insertTerm_polynomial_of_ne fuel hkey]
      case composite =>
        subst holdsum
        exact absurd ⟨rfl, rfl⟩ hflat

/-- A term beside what is left of a sum of dissimilar terms. -/
theorem totals_combineTerms_collapse (hconstant : ∀ value, value ≠ 0 → rules.constant value)
    (fuel : Nat) (h : IsCompositePart rules terms)
    (hterms : ∀ slot ∈ terms, Canonical rules slot.2) (hterm : Canonical rules term)
    (hzero : term.isZero = false) (hsum : term.isExpandedSum = false)
    (hfresh : ∀ slot ∈ terms, slot.1 ≠ term.additiveKey) :
    Totals rules (combineTerms (fuel + 2) (collapse (.composite 1 1 terms)) term)
      (terms.linear + term.linear) := by
  match terms with
  | [] =>
      have hnothing : (collapse (composite 1 1 [])).isZero = true := rfl
      rw [combineTerms_of_isZero (fuel + 1) hnothing]
      exact ⟨term, rfl, hterm, by simp⟩
  | [(slotKey, child)] =>
      have hkey : child.additiveKey ≠ term.additiveKey :=
        (h.key _ List.mem_cons_self) ▸ hfresh _ List.mem_cons_self
      rw [Slots.linear_cons, Slots.linear_nil, add_zero]
      exact totals_combineTerms_of_ne hconstant fuel (hterms _ List.mem_cons_self) hterm
        (h.flat _ List.mem_cons_self) hzero hsum hkey
  | first :: second :: rest =>
      have hinsert : insertTerm (fuel + 1) (.composite 1 1 (first :: second :: rest)) term =
          .ok (.composite 1 1 ((first :: second :: rest) ++ [(term.additiveKey, term)])) := by
        rw [insertTerm]
        · simp only [slots, Slots.find?_eq_none_iff.mpr hfresh, withSlots]
        · simp
      rw [collapse, (combineTerms_of_isExpandedSum (fuel + 1) rfl hsum hzero).1, hinsert]
      · exact totals_append_composite hconstant h hterms hterm hzero
          (isFlat_of_not_isExpandedSum hsum) hfresh (List.cons_ne_nil _ _)
      all_goals simp

theorem totals_insertTerm_composite (hconstant : ∀ value, value ≠ 0 → rules.constant value)
    (fuel : Nat) (hslots : IsComposite rules terms)
    (hterms : ∀ slot ∈ terms, Canonical rules slot.2) (hterm : Canonical rules term)
    (hzero : term.isZero = false) (hsum : term.isExpandedSum = false) :
    Totals rules (insertTerm (fuel + 4) (.composite 1 1 terms) term)
      (terms.linear + term.linear) := by
  have hflat := isFlat_of_not_isExpandedSum hsum
  have htwo := hslots.two_le
  rw [insertTerm]
  · simp only [slots, withSlots]
    cases hfind : Slots.find? term.additiveKey terms with
    | none =>
        exact totals_append_composite hconstant hslots.part hterms hterm hzero hflat
          (Slots.find?_eq_none_iff.mp hfind) (by rintro rfl; simp at htwo)
    | some old =>
        have hmem := Slots.mem_of_find? hfind
        have hkey : term.additiveKey = old.additiveKey := hslots.key _ hmem
        have hrest := hslots.part.erase term.additiveKey
        have hrestterms : ∀ slot ∈ Slots.erase term.additiveKey terms, Canonical rules slot.2 :=
          fun slot hslot => hterms slot (Slots.mem_erase.mp hslot).1
        have hlength := Slots.length_erase hslots.distinct hmem
        obtain ⟨merged, hok, hmerged, hlinear, hfits⟩ := mergesInto_combineTerms fuel
          (hterms _ hmem) hterm (hslots.flat _ hmem) hsum hkey.symm
        have htotal : terms.linear + term.linear =
            (Slots.erase term.additiveKey terms).linear + merged.linear := by
          rw [hlinear, Slots.linear_erase hslots.distinct hmem, add_right_comm, add_comm]
        simp only [hok, bind, Except.bind, htotal]
        rcases hfits with hnothing | ⟨hnothing, hfits, hmergedflat⟩
        · rw [if_pos hnothing, linear_of_isZero hnothing, add_zero]
          exact totals_collapse_composite hrest hrestterms
        · have hfresh : ∀ slot ∈ Slots.erase term.additiveKey terms,
              slot.1 ≠ merged.additiveKey := by
            rw [hfits, ← hkey]
            exact fun slot hslot => (Slots.mem_erase.mp hslot).2
          rw [if_neg (Bool.eq_false_iff.mp hnothing)]
          by_cases hgroup : merged.group = .composite
          · rw [if_pos (.inl hgroup)]
            have hmergedsum : merged.isExpandedSum = false := by
              cases merged <;> simp_all [IsFlat, group, isExpandedSum, isSum, degreePower]
            exact totals_combineTerms_collapse hconstant (fuel + 1) hrest hrestterms hmerged
              hnothing hmergedsum hfresh
          · have hnext : ¬(merged.group = .composite ∨
                merged.additiveKey ≠ term.additiveKey) := by
              simp [hgroup, hfits, hkey]
            rw [if_neg hnext, hkey, ← hfits]
            rw [hkey, ← hfits] at hrest hrestterms hlength hfresh
            refine totals_append_composite hconstant hrest hrestterms hmerged hnothing
              hmergedflat hfresh ?_
            rintro hnil
            simp only [hnil, List.length_nil] at hlength
            omega
  · simp

/-! ## Two expressions -/

/-- Any expression and a term. -/
theorem totals_combineTerms_term (hconstant : ∀ value, value ≠ 0 → rules.constant value)
    (fuel : Nat) (ha : Canonical rules a) (hb : Canonical rules b)
    (hbsum : b.isExpandedSum = false) :
    Totals rules (combineTerms (fuel + 5) a b) (a.linear + b.linear) ∧
      Totals rules (combineTerms (fuel + 5) b a) (a.linear + b.linear) := by
  cases hasum : a.isExpandedSum with
  | false =>
      refine ⟨totals_of_not_isExpandedSum hconstant (fuel + 4) ha hb hasum hbsum, ?_⟩
      rw [add_comm a.linear]
      exact totals_of_not_isExpandedSum hconstant (fuel + 4) hb ha hbsum hasum
  | true =>
      have hazero := not_isZero_of_isExpandedSum hasum
      cases hbzero : b.isZero with
      | true =>
          rw [combineTerms_of_isZero_right _ hazero hbzero, combineTerms_of_isZero _ hbzero,
            linear_of_isZero hbzero, add_zero]
          exact ⟨⟨a, rfl, ha, rfl⟩, ⟨a, rfl, ha, rfl⟩⟩
      | false =>
          obtain ⟨hleft, hright⟩ := combineTerms_of_isExpandedSum (fuel + 4) hasum hbsum hbzero
          rw [hleft, hright, and_self]
          cases ha <;> simp [isExpandedSum, isSum, degreePower] at hasum
          case polynomial coeff power terms hshape _ hslots hterms =>
            subst hasum
            obtain rfl := hshape.coeff_eq_one rfl
            rw [linear_polynomial]
            by_cases hkey : b.additiveKey = (polynomial 1 1 terms).additiveKey
            · exact (mergesInto_insertTerm_polynomial (fuel + 2) hslots hterms hb
                (isPowered_of_additiveKey_polynomial hslots hbsum hkey) hkey).totals
            · rw [insertTerm_polynomial_of_ne _ (Ne.symm hkey)]
              have hpair := totals_pairTerms_of_ne hconstant
                (.expandedPolynomial hslots hterms) hb (by rintro ⟨hgroup, -⟩; cases hgroup)
                (isFlat_of_not_isExpandedSum hbsum) hazero hbzero (Ne.symm hkey)
              rwa [linear_polynomial] at hpair
          case composite coeff power terms hshape _ hslots hterms =>
            subst hasum
            obtain rfl := hshape.coeff_eq_one rfl
            rw [linear_composite]
            exact totals_insertTerm_composite hconstant fuel hslots hterms hb hbzero hbsum

/-- A sum collects its terms one by one. -/
theorem totals_foldlM {add : Expr → Expr → Except Fault Expr}
    (hadd : ∀ total, Canonical rules total → ∀ slot ∈ terms,
      Totals rules (add total slot.2) (total.linear + slot.2.linear))
    (ha : Canonical rules a) :
    Totals rules ((Slots.children terms).foldlM add a) (a.linear + terms.linear) := by
  induction terms generalizing a with
  | nil => exact ⟨a, rfl, ha, by simp⟩
  | cons slot rest ih =>
      obtain ⟨total, hok, htotal, hlinear⟩ := hadd a ha slot List.mem_cons_self
      have hrest := ih (fun total htotal slot hslot =>
        hadd total htotal slot (List.mem_cons_of_mem _ hslot)) htotal
      rw [hlinear, add_assoc, ← Slots.linear_cons] at hrest
      simpa only [Slots.children, List.map_cons, List.foldlM_cons, hok, bind, Except.bind]
        using hrest

/-- Any expression and a polynomial. -/
theorem totals_foldlM_polynomial (hconstant : ∀ value, value ≠ 0 → rules.constant value)
    (fuel : Nat) (ha : Canonical rules a) (hb : Canonical rules b)
    (hbsum : b.isExpandedSum = true) (hgroup : b.group = .polynomial) :
    Totals rules (b.slots.children.foldlM (fun total term => combineTerms (fuel + 5) total term) a)
      (a.linear + b.linear) := by
  rw [linear_of_isExpandedSum hbsum]
  refine totals_foldlM (fun total htotal slot hslot => ?_) ha
  refine (totals_combineTerms_term hconstant fuel htotal (hb.slots slot hslot) ?_).1
  cases hb <;> simp only [group, reduceCtorEq] at hgroup
  case polynomial hslots _ => exact not_isExpandedSum_of_isPowered (hslots.powered slot hslot)

/-- Any expression and a child of a sum of dissimilar terms. -/
theorem totals_combineTerms_flat (hconstant : ∀ value, value ≠ 0 → rules.constant value)
    (fuel : Nat) (ha : Canonical rules a) (hb : Canonical rules b) (hflat : b.IsFlat) :
    Totals rules (combineTerms (fuel + 6) a b) (a.linear + b.linear) := by
  cases hbsum : b.isExpandedSum with
  | false => exact (totals_combineTerms_term hconstant (fuel + 1) ha hb hbsum).1
  | true =>
      cases hasum : a.isExpandedSum with
      | false =>
          rw [add_comm a.linear]
          exact (totals_combineTerms_term hconstant (fuel + 1) hb ha hasum).2
      | true =>
          have hbgroup : b.group = .polynomial := by
            cases b <;> simp_all [IsFlat, group, isExpandedSum, isSum, degreePower]
          obtain ⟨x, y, hxy, hx, hrank, hstep⟩ := combineTerms_cases (fuel + 5)
            (not_isZero_of_isExpandedSum hasum) (not_isZero_of_isExpandedSum hbsum)
          rw [hasum, Bool.true_or] at hx
          rcases hxy with ⟨rfl, rfl⟩ | ⟨rfl, rfl⟩
          · rw [hstep, if_pos hx, if_pos hbsum]
            exact totals_foldlM_polynomial hconstant fuel ha hb hbsum hbgroup
          · have hygroup : y.group = .polynomial := by
              have hle := hrank hasum
              rw [hbgroup] at hle
              cases y <;> simp_all [isExpandedSum, isSum, group, Group.rank]
            rw [hstep, if_pos hx, if_pos hasum, add_comm y.linear]
            exact totals_foldlM_polynomial hconstant fuel hb ha hasum hygroup

/-- The sum of two expressions, one child of the second at a time. -/
theorem totals_foldlM_slots (hconstant : ∀ value, value ≠ 0 → rules.constant value)
    (fuel : Nat) (ha : Canonical rules a) (hb : Canonical rules b)
    (hbsum : b.isExpandedSum = true) :
    Totals rules (b.slots.children.foldlM (fun total term => combineTerms (fuel + 6) total term) a)
      (a.linear + b.linear) := by
  rw [linear_of_isExpandedSum hbsum]
  refine totals_foldlM (fun total htotal slot hslot => ?_) ha
  refine totals_combineTerms_flat hconstant fuel htotal (hb.slots slot hslot) ?_
  cases hb <;> simp [isExpandedSum, isSum] at hbsum
  case polynomial hslots _ =>
    exact isFlat_of_not_isExpandedSum
      (not_isExpandedSum_of_isPowered (hslots.powered slot hslot))
  case composite hslots _ => exact hslots.flat slot hslot

/-- Seven nested calls are enough for any two canonical expressions. -/
theorem totals_combineTerms (hconstant : ∀ value, value ≠ 0 → rules.constant value)
    (fuel : Nat) (ha : Canonical rules a) (hb : Canonical rules b) :
    Totals rules (combineTerms (fuel + 7) a b) (a.linear + b.linear) := by
  cases hbsum : b.isExpandedSum with
  | false => exact (totals_combineTerms_term hconstant (fuel + 2) ha hb hbsum).1
  | true =>
      cases hasum : a.isExpandedSum with
      | false =>
          rw [add_comm a.linear]
          exact (totals_combineTerms_term hconstant (fuel + 2) hb ha hasum).2
      | true =>
          obtain ⟨x, y, hxy, hx, -, hstep⟩ := combineTerms_cases (fuel + 6)
            (not_isZero_of_isExpandedSum hasum) (not_isZero_of_isExpandedSum hbsum)
          rw [hasum, Bool.true_or] at hx
          rw [hstep, if_pos hx]
          rcases hxy with ⟨rfl, rfl⟩ | ⟨rfl, rfl⟩
          · rw [if_pos hbsum]
            exact totals_foldlM_slots hconstant fuel ha hb hbsum
          · rw [if_pos hasum, add_comm y.linear]
            exact totals_foldlM_slots hconstant fuel hb ha hasum

theorem seven_le_budget (a b : Expr) : 7 ≤ budget a b :=
  calc 7 ≤ 2 ^ 8 := by norm_num
    _ ≤ 2 ^ (a.weight + b.weight + 8) := Nat.pow_le_pow_right (by norm_num) (by omega)

/-- The sum of canonical expressions is canonical, and its coefficients are the sums of
theirs. -/
theorem totals_plus (hconstant : ∀ value, value ≠ 0 → rules.constant value)
    (ha : Canonical rules a) (hb : Canonical rules b) :
    Totals rules (plus a b) (a.linear + b.linear) := by
  rw [plus, ← Nat.sub_add_cancel (seven_le_budget a b)]
  exact totals_combineTerms hconstant _ ha hb

theorem canonical_plus (hconstant : ∀ value, value ≠ 0 → rules.constant value)
    (ha : Canonical rules a) (hb : Canonical rules b) (hnode : plus a b = .ok node) :
    Canonical rules node := by
  obtain ⟨_, hok, hcanonical, -⟩ := totals_plus hconstant ha hb
  cases hok.symm.trans hnode
  exact hcanonical

end Reduce

end ExactAlgebra
