import ExactAlgebra.Proofs.Canonical.Identity

/-!
# Exponents of terms

A term is read as a function from the keys of its factors to their exponents, and an exponent
as a function from contents to coefficients.  The exponents determine the content of a term.
-/

namespace ExactAlgebra

/-- The coefficients of an exponent. -/
noncomputable def Exponent.linear (power : Exponent) : Key →₀ Rat := (Reduce.asNode power).linear

namespace Expr

/-- The factors of a term: none of a constant, those of a product, or the term alone. -/
def factors : Expr → List Expr
  | number _ => []
  | product _ _ slots => Slots.children slots
  | node => [node]

/-- The exponents that stand under the keys of some factors. -/
noncomputable def exponentsOf (factors : List Expr) : Key →₀ Key →₀ Rat :=
  (factors.map fun factor => Finsupp.single factor.multiplicativeKey factor.exponent.linear).sum

/-- The exponents of the factors of a term. -/
noncomputable def exponents (node : Expr) : Key →₀ Key →₀ Rat := exponentsOf node.factors

variable {factor node : Expr} {key : Key} {list list' : List Expr}

theorem factors_of_isFactor (h : node.isFactor = true) : node.factors = [node] := by
  obtain ⟨hnumber, hgroup, -⟩ := isFactor_iff.mp h
  cases node <;> first | rfl | exact absurd rfl hgroup | cases hnumber

@[simp] theorem exponentsOf_nil : exponentsOf [] = 0 := rfl

@[simp] theorem exponentsOf_cons (factor : Expr) (rest : List Expr) :
    exponentsOf (factor :: rest) =
      Finsupp.single factor.multiplicativeKey factor.exponent.linear + exponentsOf rest := by
  simp [exponentsOf]

theorem exponentsOf_append (list list' : List Expr) :
    exponentsOf (list ++ list') = exponentsOf list + exponentsOf list' := by
  simp [exponentsOf]

theorem exponentsOf_perm (h : list.Perm list') : exponentsOf list = exponentsOf list' :=
  (h.map _).sum_eq

@[simp] theorem exponents_number (value : Rat) : (number value).exponents = 0 := rfl

@[simp] theorem exponents_product (coeff power : Rat) (slots : Slots) :
    (product coeff power slots).exponents = exponentsOf slots.children := rfl

theorem exponents_of_isFactor (h : node.isFactor = true) :
    node.exponents = Finsupp.single node.multiplicativeKey node.exponent.linear := by
  rw [exponents, factors_of_isFactor h, exponentsOf_cons, exponentsOf_nil, add_zero]

theorem exponents_withCoeff (c : Rat) (node : Expr) :
    (node.withCoeff c).exponents = node.exponents := by
  cases hnumber : node.isNumber with
  | true => cases node <;> first | rfl | cases hnumber
  | false =>
      by_cases hgroup : node.group = .product
      · cases node <;> first | rfl | cases hgroup
      · have hfactors : ∀ other : Expr, other.isNumber = false → other.group ≠ .product →
            other.factors = [other] := by
          intro other hnumber hgroup
          cases other <;> first | rfl | exact absurd rfl hgroup | cases hnumber
        rw [exponents, exponents, hfactors node hnumber hgroup,
          hfactors _ (by simpa using hnumber) (by simpa using hgroup)]
        simp [hnumber]

/-- No other factor stands under the key of a factor. -/
theorem exponentsOf_of_not_mem (h : ∀ factor ∈ list, factor.multiplicativeKey ≠ key) :
    exponentsOf list key = 0 := by
  induction list with
  | nil => rfl
  | cons factor rest ih =>
      obtain ⟨hfactor, hrest⟩ := List.forall_mem_cons.mp h
      rw [exponentsOf_cons, Finsupp.add_apply, ih hrest, Finsupp.single_eq_of_ne hfactor.symm,
        add_zero]

theorem exponentsOf_of_mem (hdistinct : (list.map multiplicativeKey).Nodup) (h : factor ∈ list) :
    exponentsOf list factor.multiplicativeKey = factor.exponent.linear := by
  induction list with
  | nil => cases h
  | cons first rest ih =>
      obtain ⟨hfresh, hrest⟩ := List.nodup_cons.mp hdistinct
      rw [exponentsOf_cons, Finsupp.add_apply]
      rcases List.mem_cons.mp h with rfl | hmem
      · rw [Finsupp.single_eq_same, exponentsOf_of_not_mem, add_zero]
        exact fun other hother hkey => hfresh (hkey ▸ List.mem_map_of_mem hother)
      · have hne : factor.multiplicativeKey ≠ first.multiplicativeKey :=
          fun hkey => hfresh (hkey ▸ List.mem_map_of_mem hmem)
        rw [Finsupp.single_eq_of_ne hne, zero_add, ih hrest hmem]

end Expr

open ExactAlgebra.Expr

/-! ## Factors -/

theorem IsSum.power_ne_zero {coeff power : Rat} (h : IsSum coeff power) : power ≠ 0 := by
  rcases h with ⟨-, rfl⟩ | ⟨-, h | h⟩
  · exact one_ne_zero
  · exact h.ne
  · exact h.1.ne'

namespace Canonical

variable {rules : Discipline} {a b node factor factor' : Expr}

/-- What is known of each factor of a term. -/
theorem factors (h : Canonical rules node) (hsum : node.isExpandedSum = false) :
    ∀ factor ∈ node.factors, Canonical rules factor ∧ factor.isFactor = true := by
  by_cases hgroup : node.group = .product
  · obtain ⟨coeff, slots, rfl, -, hslots, hfactors⟩ := Reduce.product_of_group h hgroup
    exact List.forall_mem_map.mpr fun slot hslot => ⟨hfactors slot hslot, hslots.factor slot hslot⟩
  · cases hnumber : node.isNumber with
    | true =>
        obtain ⟨value, rfl⟩ := exists_eq_number hnumber
        exact fun factor hfactor => absurd hfactor List.not_mem_nil
    | false =>
        have hfactor : node.isFactor = true := isFactor_iff.mpr ⟨hnumber, hgroup, hsum⟩
        rw [factors_of_isFactor hfactor]
        exact List.forall_mem_singleton.mpr ⟨h, hfactor⟩

theorem nodup_keys (h : Canonical rules node) :
    (node.factors.map multiplicativeKey).Nodup := by
  cases h with
  | @product coeff slots _ hslots _ =>
      have hkeys : slots.children.map multiplicativeKey = slots.map Prod.fst := by
        rw [Slots.children, List.map_map]
        exact List.map_congr_left fun slot hslot => (hslots.key slot hslot).symm
      rw [Expr.factors, hkeys]
      exact hslots.distinct
  | number => exact List.nodup_nil
  | _ => exact List.nodup_singleton _

/-- The contents of the factors determine that of the term. -/
theorem content_eq_of_factors (ha : Canonical rules a) (hb : Canonical rules b)
    (hasum : a.isExpandedSum = false) (hbsum : b.isExpandedSum = false)
    (h : (a.factors.map content).Perm (b.factors.map content)) : a.content = b.content := by
  have hcases : ∀ {node : Expr}, Canonical rules node → node.isExpandedSum = false →
      (node.factors.map content = [] ∧ node.content = constantMark) ∨
      (node.factors.map content = [node.content]) ∨
      (2 ≤ (node.factors.map content).length ∧ node.content = .tuple [.group .product,
        .setOf ((node.factors.map content).map (.cons (.rational 1))), .rational 1]) := by
    intro node hnode hsum
    by_cases hgroup : node.group = .product
    · obtain ⟨coeff, slots, rfl, -, hslots, -⟩ := Reduce.product_of_group hnode hgroup
      refine .inr (.inr ⟨by simpa [Expr.factors, Slots.children] using hslots.two_le, ?_⟩)
      have hsignatures : slotsSignatures slots =
          ((Slots.children slots).map content).map (.cons (.rational 1)) := by
        rw [Slots.slotsSignatures_eq, Slots.signatures, Slots.children, List.map_map, List.map_map]
        refine List.map_congr_left fun slot hslot => ?_
        rw [signature, hslots.coeff slot hslot]
        rfl
      rw [content, hsignatures, Expr.factors]
    · cases hnumber : node.isNumber with
      | true =>
          obtain ⟨value, rfl⟩ := exists_eq_number hnumber
          exact .inl ⟨rfl, rfl⟩
      | false =>
          rw [factors_of_isFactor (isFactor_iff.mpr ⟨hnumber, hgroup, hsum⟩)]
          exact .inr (.inl rfl)
  have hlength := h.length_eq
  rcases hcases ha hasum with ⟨hanil, hacontent⟩ | haone | ⟨hatwo, hacontent⟩ <;>
    rcases hcases hb hbsum with ⟨hbnil, hbcontent⟩ | hbone | ⟨hbtwo, hbcontent⟩
  case inl.inl => rw [hacontent, hbcontent]
  case inr.inl.inr.inl =>
    rw [haone, hbone] at h
    simpa using h
  case inr.inr.inr.inr =>
    rw [hacontent, hbcontent, Key.setOf_eq_setOf_iff.mpr fun key => (h.map _).mem_iff]
  case inr.inl.inr.inr =>
    rw [haone] at hlength
    simp only [List.length_singleton] at hlength
    omega
  case inr.inr.inr.inl =>
    rw [hbone] at hlength
    simp only [List.length_singleton] at hlength
    omega
  all_goals simp_all

/-- An exponent that has the coefficients of a constant is one. -/
theorem isNumber_of_linear (h : Canonical .proper node) {value : Rat}
    (hlinear : node.linear = Finsupp.single constantMark value) : node.isNumber = true := by
  rw [← linear_number] at hlinear
  exact isNumber_of_content (content_eq_of_signature
    (h.signature_eq_of_linear (fun _ hvalue => hvalue) (.number value) hlinear))

/-- The kinds of factors: radicals, powers with a rational exponent, and exponentials. -/
inductive IsKind (rules : Discipline) : Expr → Prop
  | radical {coeff base power : Rat} (h : IsRadical base power) :
      IsKind rules (.radical coeff base power)
  | powered {factor : Expr} (h : factor.isPowered = true) (hpower : factor.degreePower ≠ 0) :
      IsKind rules factor
  | exponential {coeff : Rat} {base exponent : Expr} (h : Canonical rules exponent)
      (hnumber : exponent.isNumber = false) : IsKind rules (.exponential coeff base exponent)

theorem isKind (h : Canonical rules factor) (hfactor : factor.isFactor = true) :
    IsKind rules factor := by
  obtain ⟨hfnumber, hgroup, hsum⟩ := isFactor_iff.mp hfactor
  cases h with
  | number => cases hfnumber
  | radical _ hradical => exact .radical hradical
  | symbol _ hpower => exact .powered rfl hpower
  | call _ hpower => exact .powered rfl hpower
  | constantBase _ _ _ _ hexponent hnumber => exact .exponential hexponent hnumber
  | plainBase _ _ _ _ hexponent hnumber => exact .exponential hexponent hnumber
  | product => exact absurd rfl hgroup
  | polynomial hshape | composite hshape =>
      refine .powered ?_ hshape.power_ne_zero
      simpa [isPowered, isAtomSum, isExpandedSum, isSum] using hsum

theorem linear_exponent_of_isPowered (h : node.isPowered = true) :
    node.exponent.linear = Finsupp.single constantMark node.degreePower := by
  rw [exponent_of_isPowered h]
  exact linear_number _

theorem multiplicativeKey_of_isPowered (h : node.isPowered = true) :
    ∃ key, node.multiplicativeKey = .cons (.rational 1) key := by
  rw [multiplicativeKey, baseKey_of_isPowered h]
  split_ifs
  · exact ⟨_, rfl⟩
  · exact ⟨_, rfl⟩

/-- Key and exponent determine a factor. -/
theorem content_eq_of_exponent (h : Canonical .proper factor) (h' : Canonical .proper factor')
    (hfactor : factor.isFactor = true) (hfactor' : factor'.isFactor = true)
    (hkey : factor.multiplicativeKey = factor'.multiplicativeKey)
    (hexponent : factor.exponent.linear = factor'.exponent.linear) :
    factor.content = factor'.content := by
  have hsymbolic : ∀ {e : Expr} {p : Rat}, Canonical .proper e → e.isNumber = false →
      e.linear ≠ Finsupp.single constantMark p := fun he hnumber hlinear => by
    simp [he.isNumber_of_linear hlinear] at hnumber
  have hunit : ∀ {base power : Rat} {key : Key}, IsRadical base power →
      Key.cons (.rational base) constantMark ≠ .cons (.rational 1) key := by
    rintro base power key (⟨-, hbase, -⟩ | ⟨rfl, -⟩) heq
    · obtain rfl : base = 1 := by simpa using (Key.cons.inj heq).1
      norm_num at hbase
    · norm_num at heq
  cases h.isKind hfactor with
  | @radical c base power hradical =>
      cases h'.isKind hfactor' with
      | @radical c' base' power' _ =>
          obtain rfl : base = base' := by simpa using (Key.cons.inj hkey).1
          obtain rfl : power = power' := Finsupp.single_injective constantMark
            ((linear_number power).symm.trans (hexponent.trans (linear_number power')))
          rfl
      | powered hpowered _ =>
          obtain ⟨key, hkey'⟩ := multiplicativeKey_of_isPowered hpowered
          exact absurd (hkey.trans hkey') (hunit hradical)
      | exponential he henumber =>
          exact absurd (hexponent.symm.trans (linear_number power)) (hsymbolic he henumber)
  | powered hpowered _ =>
      have hrational := linear_exponent_of_isPowered hpowered
      cases h'.isKind hfactor' with
      | radical hradical =>
          obtain ⟨key, hkey'⟩ := multiplicativeKey_of_isPowered hpowered
          exact absurd (hkey.symm.trans hkey') (hunit hradical)
      | powered hpowered' _ =>
          rw [hrational, linear_exponent_of_isPowered hpowered'] at hexponent
          exact content_eq_of_baseKey hpowered hpowered'
            (Finsupp.single_injective constantMark hexponent)
            (baseKey_eq_of_multiplicativeKey hpowered hpowered' hkey)
      | exponential he henumber =>
          exact absurd (hexponent.symm.trans hrational) (hsymbolic he henumber)
  | @exponential c base e he henumber =>
      cases h'.isKind hfactor' with
      | radical =>
          exact absurd (hexponent.trans (linear_number _)) (hsymbolic he henumber)
      | powered hpowered _ =>
          exact absurd (hexponent.trans (linear_exponent_of_isPowered hpowered))
            (hsymbolic he henumber)
      | @exponential c' base' e' he' _ =>
          have hbase : base.signature = base'.signature := by
            have hkeys : (Expr.exponential c base e).baseKey =
                (Expr.exponential c' base' e').baseKey := hkey
            rw [baseKey_exponential, baseKey_exponential] at hkeys
            split_ifs at hkeys <;> simp_all [signature]
          have hsignature := he.signature_eq_of_linear (fun _ hvalue => hvalue) he' hexponent
          rw [signature, signature, Key.cons.injEq] at hbase hsignature
          rw [content, content, hbase.1, hbase.2, hsignature.1, hsignature.2]

/-! ## Terms -/

theorem exponent_ne_zero (h : Canonical .proper factor) (hfactor : factor.isFactor = true) :
    factor.exponent.linear ≠ 0 := by
  cases h.isKind hfactor with
  | @radical c base power hradical =>
      have hpower : power ≠ 0 := by rcases hradical with ⟨-, -, h, -⟩ | ⟨-, h, -⟩ <;> exact h.ne'
      exact (linear_number power).trans_ne (Finsupp.single_ne_zero.mpr hpower)
  | powered hpowered hpower =>
      rw [linear_exponent_of_isPowered hpowered]
      exact Finsupp.single_ne_zero.mpr hpower
  | exponential he henumber =>
      have hzero := isZero_of_isNumber henumber
      obtain ⟨c, hc⟩ := he.exists_linear_ne_zero (fun _ hvalue => hvalue) hzero
      exact fun heq => hc (congrArg (· c) heq)

theorem exists_content_eq (ha : Canonical .proper a) (hb : Canonical .proper b)
    (hasum : a.isExpandedSum = false) (hbsum : b.isExpandedSum = false)
    (h : a.exponents = b.exponents) (hmem : factor ∈ a.factors) :
    factor.content ∈ b.factors.map content := by
  obtain ⟨hfactor, hfactorial⟩ := ha.factors hasum factor hmem
  have hvalue := exponentsOf_of_mem ha.nodup_keys hmem
  have hsome : ∃ other ∈ b.factors, other.multiplicativeKey = factor.multiplicativeKey := by
    by_contra hnone
    push Not at hnone
    refine hfactor.exponent_ne_zero hfactorial ?_
    rw [← hvalue, ← exponents, h, exponents, exponentsOf_of_not_mem hnone]
  obtain ⟨other, hother, hkey⟩ := hsome
  obtain ⟨hcanonical, hotherfactor⟩ := hb.factors hbsum other hother
  refine List.mem_map.mpr ⟨other, hother, hcanonical.content_eq_of_exponent hfactor hotherfactor
    hfactorial hkey ?_⟩
  rw [← hvalue, ← exponents, h, exponents, ← hkey, exponentsOf_of_mem hb.nodup_keys hother]

theorem nodup_factor_contents (h : Canonical rules node) (hsum : node.isExpandedSum = false) :
    (node.factors.map content).Nodup := by
  refine List.Nodup.map_on ?_ (List.Nodup.of_map _ h.nodup_keys)
  intro factor hfactor other hother hcontent
  have hnumber := (isFactor_iff.mp (h.factors hsum factor hfactor).2).1
  exact List.inj_on_of_nodup_map h.nodup_keys hfactor hother
    (multiplicativeKey_eq_of_content hnumber hcontent)

/-- The exponents determine the content of a term. -/
theorem content_eq_of_exponents (ha : Canonical .proper a) (hb : Canonical .proper b)
    (hasum : a.isExpandedSum = false) (hbsum : b.isExpandedSum = false)
    (h : a.exponents = b.exponents) : a.content = b.content := by
  refine ha.content_eq_of_factors hb hasum hbsum ((List.perm_ext_iff_of_nodup
    (ha.nodup_factor_contents hasum) (hb.nodup_factor_contents hbsum)).mpr fun c => ?_)
  constructor
  · intro hc
    obtain ⟨factor, hfactor, rfl⟩ := List.mem_map.mp hc
    exact ha.exists_content_eq hb hasum hbsum h hfactor
  · intro hc
    obtain ⟨factor, hfactor, rfl⟩ := List.mem_map.mp hc
    exact hb.exists_content_eq ha hbsum hasum h.symm hfactor

theorem exponent_eq_of_content (ha : Canonical rules a) (hb : Canonical rules b)
    (h : a.content = b.content) : a.exponent.linear = b.exponent.linear := by
  have hgroup := group_eq_of_content h
  by_cases hexponential : a.group = .exponential
  · cases a <;> simp only [group, reduceCtorEq] at hexponential
    cases b <;> simp only [group, reduceCtorEq] at hgroup
    have hexponent : ∀ {c : Rat} {base e : Expr}, Canonical rules (.exponential c base e) →
        Canonical rules e := by
      intro c base e he
      cases he <;> assumption
    simp only [content, Key.tuple, Key.cons.injEq, true_and, and_true] at h
    refine (hexponent ha).linear_eq_of_signature (hexponent hb) ?_
    rw [signature, signature, h.2.1, h.2.2]
    rfl
  · have hpower := degreePower_eq_of_content h
    have hrational : ∀ {node : Expr}, node.group ≠ .exponential →
        node.exponent = .rational node.degreePower := by
      intro node hnode
      cases node <;> first | rfl | exact absurd rfl hnode
    rw [hrational hexponential, hrational (hgroup ▸ hexponential), hpower]

/-- The content of a term determines its exponents. -/
theorem exponents_eq_of_content (ha : Canonical rules a) (hb : Canonical rules b)
    (hasum : a.isExpandedSum = false) (h : a.content = b.content) :
    a.exponents = b.exponents := by
  have hbsum : b.isExpandedSum = false := by rwa [← isExpandedSum_eq_of_content h]
  have hgroup := group_eq_of_content h
  by_cases hproduct : a.group = .product
  · have hperm := Slots.map_perm
      (f := fun node => Finsupp.single node.multiplicativeKey node.exponent.linear)
      (ha.signatures_perm hb h) fun slot hslot slot' hslot' hsignature => by
        have hcontent := content_eq_of_signature hsignature
        have hmem : ∀ {node : Expr}, node.group = .product → node.factors = node.slots.children := by
          intro node hnode
          cases node <;> first | rfl | cases hnode
        have hfactor : slot.2 ∈ a.factors := by
          rw [hmem hproduct]
          exact List.mem_map_of_mem hslot
        have hnumber := (isFactor_iff.mp (ha.factors hasum _ hfactor).2).1
        rw [multiplicativeKey_eq_of_content hnumber hcontent,
          (ha.slots slot hslot).exponent_eq_of_content (hb.slots slot' hslot') hcontent]
    cases a <;> simp only [group, reduceCtorEq] at hproduct
    cases b <;> simp only [group, reduceCtorEq] at hgroup
    simp only [exponents_product, exponentsOf, Slots.children, List.map_map]
    exact hperm.sum_eq
  · cases hnumber : a.isNumber with
    | true =>
        have hbnumber := isNumber_eq_of_content h ▸ hnumber
        obtain ⟨x, rfl⟩ := exists_eq_number hnumber
        obtain ⟨y, rfl⟩ := exists_eq_number hbnumber
        rfl
    | false =>
        rw [exponents_of_isFactor (isFactor_iff.mpr ⟨hnumber, hproduct, hasum⟩),
          exponents_of_isFactor (isFactor_iff.mpr
            ⟨isNumber_eq_of_content h ▸ hnumber, hgroup ▸ hproduct, hbsum⟩),
          multiplicativeKey_eq_of_content hnumber h, ha.exponent_eq_of_content hb h]

end Canonical

end ExactAlgebra
