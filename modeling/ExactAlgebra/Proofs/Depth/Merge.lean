import ExactAlgebra.Proofs.Depth.Constant

/-!
# Factors of one base

Two factors in one slot are powers of one base, and the exponents are added.  What comes
out of it has less potential than the two factors, unless they are roots.
-/

namespace ExactAlgebra

open ExactAlgebra.Expr Reduce

variable {mode : Mode} {rules : Discipline} {a b base node : Expr} {n : Nat} {p : Rat}
  {power power' : Exponent}

/-! ## Bases of factors -/

/-- The factors in one slot of a product. -/
inductive SameBase : Expr → Expr → Prop
  | radical {c c' base p p' : Rat} : SameBase (.radical c base p) (.radical c' base p')
  | constant {c c' base : Rat} {exponent exponent' : Expr} :
      SameBase (.exponential c (.number base) exponent) (.exponential c' (.number base) exponent')
  | plain {a b : Expr} (ha : a.baseOf.isPlain = true) (hb : b.baseOf.isPlain = true)
      (h : a.baseOf.content = b.baseOf.content) : SameBase a b

/-- What the key of a factor says about its base. -/
inductive HasBaseKey (node : Expr) : Prop
  | radical {c base p : Rat} (h : node = .radical c base p)
  | constant {c base : Rat} {exponent : Expr} (h : node = .exponential c (.number base) exponent)
  | plain (hplain : node.baseOf.isPlain = true)
      (hkey : node.multiplicativeKey = .cons (.rational 1) node.baseOf.content ∨
        node.multiplicativeKey =
          .append (.rational (-1)) (.cons (.rational 1) node.baseOf.content))

theorem Canonical.hasBaseKey (h : Canonical rules node) (hfactor : node.isFactor = true) :
    HasBaseKey node := by
  have hshape := h.isBase_baseOf
  cases h with
  | number => cases hfactor
  | product => cases hfactor
  | radical => exact .radical rfl
  | constantBase => exact .constant rfl
  | @plainBase coeff base exponent hcoeff hplain =>
      refine .plain hplain (.inl ?_)
      have hnumber := isNumber_of_isPlain hplain
      have hone := (isPlain_iff.mp hplain).2.1
      simp only [multiplicativeKey, isAtomSum, isSum, Bool.false_and, Bool.false_eq_true, if_false,
        baseKey_exponential, hnumber, signature, hone, Expr.baseOf]
  | symbol | call => exact .plain rfl (.inl rfl)
  | polynomial | composite =>
      refine .plain rfl ?_
      rw [multiplicativeKey]
      split_ifs
      · exact .inr (by simp [baseKey, Expr.baseOf, Expr.withCoeff, withPower, content])
      · exact .inl (by simp [baseKey, Expr.baseOf, Expr.withCoeff, withPower, content])

/-- The content of a base does not end like the key of a negative power. -/
theorem content_ne_append (ha : a.isPlain = true) (hb : b.isPlain = true) :
    a.content ≠ .append (.rational (-1)) b.content := by
  cases a <;> simp only [isPlain, Bool.false_and, Bool.false_eq_true] at ha <;>
    cases b <;> simp only [isPlain, Bool.false_and, Bool.false_eq_true] at hb <;>
    simp [content, Key.tuple, Key.append]

theorem append_content_injective (ha : a.isPlain = true) (hb : b.isPlain = true)
    (h : Key.append (.rational (-1)) a.content = .append (.rational (-1)) b.content) :
    a.content = b.content := by
  cases a <;> simp only [isPlain, Bool.false_and, Bool.false_eq_true] at ha <;>
    cases b <;> simp only [isPlain, Bool.false_and, Bool.false_eq_true] at hb <;>
    simp_all [content, Key.tuple, Key.append]

theorem content_ne_constantMark_of_isPlain (h : a.isPlain = true) :
    a.content ≠ constantMark ∧ Key.append (.rational (-1)) a.content ≠ constantMark := by
  cases a <;> simp only [isPlain, Bool.false_and, Bool.false_eq_true] at h <;>
    simp [content, Key.tuple, Key.append, constantMark]

theorem Canonical.sameBase (ha : Canonical rules a) (hb : Canonical rules b)
    (hafactor : a.isFactor = true) (hbfactor : b.isFactor = true)
    (hkey : a.multiplicativeKey = b.multiplicativeKey) : SameBase a b := by
  have hplain {c : Key} {x : Expr} (hx : x.baseOf.isPlain = true)
      (h : x.multiplicativeKey = .cons (.rational 1) x.baseOf.content ∨ x.multiplicativeKey =
        .append (.rational (-1)) (.cons (.rational 1) x.baseOf.content)) :
      (∀ value, x.multiplicativeKey ≠ .cons (.rational value) constantMark) ∧
        x.multiplicativeKey ≠ .cons (.group .exponential) c := by
    have hne := content_ne_constantMark_of_isPlain hx
    rcases h with h | h <;> rw [h] <;> simp [Key.append, hne]
  cases ha.hasBaseKey hafactor with
  | radical ha' =>
      subst ha'
      cases hb.hasBaseKey hbfactor with
      | radical hb' =>
          subst hb'
          obtain rfl := by simpa [multiplicativeKey, isAtomSum, isSum, baseKey] using hkey
          exact .radical
      | constant hb' =>
          subst hb'
          simp [multiplicativeKey, isAtomSum, isSum, baseKey] at hkey
      | plain hbplain hbkey => exact absurd hkey.symm ((hplain (c := .nil) hbplain hbkey).1 _)
  | constant ha' =>
      subst ha'
      cases hb.hasBaseKey hbfactor with
      | radical hb' =>
          subst hb'
          simp [multiplicativeKey, isAtomSum, isSum, baseKey] at hkey
      | constant hb' =>
          subst hb'
          obtain rfl := by simpa [multiplicativeKey, isAtomSum, isSum, baseKey] using hkey
          exact .constant
      | plain hbplain hbkey => exact absurd hkey.symm (hplain hbplain hbkey).2
  | plain haplain hakey =>
      cases hb.hasBaseKey hbfactor with
      | radical hb' =>
          subst hb'
          exact absurd hkey ((hplain (c := .nil) haplain hakey).1 _)
      | constant hb' =>
          subst hb'
          exact absurd hkey (hplain haplain hakey).2
      | plain hbplain hbkey =>
          refine .plain haplain hbplain ?_
          rcases hakey with hakey | hakey <;> rcases hbkey with hbkey | hbkey <;>
            rw [hakey, hbkey] at hkey <;> simp only [Key.append, Key.cons.injEq, true_and] at hkey
          · exact hkey
          · exact absurd hkey (content_ne_append haplain hbplain)
          · exact absurd hkey.symm (content_ne_append hbplain haplain)
          · exact append_content_injective haplain hbplain hkey

theorem SameBase.group_eq_radical (h : SameBase a b) (ha : a.group = .radical) :
    b.group = .radical := by
  cases h with
  | radical => rfl
  | constant => cases ha
  | plain hplain =>
      cases a <;> simp only [group, reduceCtorEq] at ha
      cases hplain

/-! ## Powers of variables, calls and sums -/

/-- The rational part of an exponent. -/
noncomputable def Exponent.constant (power : Exponent) : Rat :=
  (asNode power).linear constantMark

theorem Exponent.constant_rational (p : Rat) : (Exponent.rational p).constant = p := by
  simp [Exponent.constant, asNode]

theorem Exponent.constant_symbolic {exponent : Expr} (h : Canonical rules exponent)
    (hnumber : exponent.isNumber = false) :
    (Exponent.symbolic exponent).constant = constantTerm exponent :=
  (constantTerm_eq_linear h hnumber).symm

/-- The potential of a power of a base that is no constant. -/
noncomputable def plainPotential (base : Expr) (p : Rat) : Nat :=
  if base.isSum then powerPotential base.potential p else 1

theorem plainPotential_add_lt (base : Expr) (p q : Rat) :
    plainPotential base (p + q) < plainPotential base p + plainPotential base q := by
  unfold plainPotential
  split_ifs
  · have hceil := Nat.ceil_add_le p q
    have hmul := Nat.mul_le_mul_right (base.potential + 1) hceil
    simp only [powerPotential, Nat.add_mul] at hmul ⊢
    omega
  · omega

theorem plainPotential_eq_of_content (ha : Canonical rules a) (hb : Canonical rules b)
    (h : a.content = b.content) (p : Rat) : plainPotential a p = plainPotential b p := by
  rw [plainPotential, plainPotential, isSum_eq_of_content h, ha.potential_eq_of_content hb h]

/-- The potential of a factor, from its base and its exponent. -/
theorem Canonical.potential_eq_plainPotential (h : Canonical rules node)
    (hfactor : node.isFactor = true) (hplain : node.baseOf.isPlain = true) :
    node.potential = plainPotential node.baseOf node.exponent.constant := by
  have hsum := (isFactor_iff.mp hfactor).2.2
  cases h with
  | number => cases hfactor
  | product => cases hfactor
  | radical => cases hplain
  | constantBase => cases hplain
  | symbol | call => rw [potential]; rfl
  | @plainBase coeff base exponent _ hbase _ _ hexponent hnumber =>
      have hconstant : (Expr.exponential coeff base exponent).exponent.constant =
          constantTerm exponent := Exponent.constant_symbolic hexponent hnumber
      rw [potential, isNumber_of_isPlain hbase, hconstant]
      rfl
  | @polynomial coeff power terms =>
      have hpower : power ≠ 1 := by simpa [isExpandedSum, isSum, degreePower] using hsum
      have hconstant : (Expr.polynomial coeff power terms).exponent.constant = power :=
        Exponent.constant_rational power
      rw [potential, if_neg hpower, hconstant]
      simp [plainPotential, isSum, Expr.baseOf, Expr.withCoeff, withPower, potential]
  | @composite coeff power terms =>
      have hpower : power ≠ 1 := by simpa [isExpandedSum, isSum, degreePower] using hsum
      have hconstant : (Expr.composite coeff power terms).exponent.constant = power :=
        Exponent.constant_rational power
      rw [potential, if_neg hpower, hconstant]
      simp [plainPotential, isSum, Expr.baseOf, Expr.withCoeff, withPower, potential]

namespace Reduce

/-- A rational power of a variable or call. -/
theorem reaches_raiseBase_leaf (hbase : base.isPlain = true) (hsum : base.isSum = false) :
    Reaches (fun depth => raiseBase mode depth base (.rational p))
      (fun node => node.potential ≤ 1) := by
  have hone : base.potential ≤ 1 ∧ (base.withPower p).potential ≤ 1 := by
    cases base <;> simp_all [isPlain, isSum, potential, withPower]
  have hunit : (imaginaryPower mode p.num).potential ≤ 1 := by
    unfold imaginaryPower
    split <;> simp [potential]
  refine .succ rfl ?_
  cases base <;> simp only [isPlain, Bool.false_and, Bool.false_eq_true, isSum,
    Bool.true_eq_false] at hbase hsum <;> simp only [raiseBase, asNode, asExponent] <;> split_ifs
  all_goals first
    | exact .ok hone.1
    | exact .ok hone.2
    | exact .ok hunit
    | exact .ok (by simp [potential])

/-- A power of a base that is no constant. -/
theorem reaches_raiseBase_plain (hrules : rules.Admissible mode) (hmode : mode.numeric = false)
    (ih : Multiplies rules mode n) (hbase : Canonical rules base) (hplain : base.isPlain = true)
    (hpower : Canonical.IsExponent rules power)
    (hn : 5 * plainPotential base power.constant ≤ n) :
    Reaches (fun depth => raiseBase mode depth base power)
      (Within rules (plainPotential base power.constant)) := by
  have hcanonical (depth : Nat) (node : Expr) (hnode : raiseBase mode depth base power = .ok node) :
      Canonical rules node :=
    (closed hrules hmode depth).raiseBase hbase (.plain hplain) hpower node hnode
  cases hpower with
  | @symbolic exponent hexponent hnumber =>
      refine .succ rfl ?_
      simp only [raiseBase, asNode, asExponent_of_not_isNumber hnumber]
      refine .succ rfl ?_
      simp only [exponential_of_isPlain hplain]
      refine .ok
        ⟨.plainBase one_ne_zero hplain (hrules.plainBase hplain) hbase hexponent hnumber, ?_⟩
      rw [potential, isNumber_of_isPlain hplain, Exponent.constant_symbolic hexponent hnumber]
      exact le_rfl
  | rational p =>
      rw [Exponent.constant_rational] at hn ⊢
      cases hsum : base.isSum with
      | true =>
          rw [plainPotential, if_pos hsum] at hn ⊢
          have hexpanded : base.isExpandedSum = true :=
            isExpandedSum_iff.mpr ⟨hsum, (isPlain_iff.mp hplain).2.2⟩
          exact reaches_raiseSum hrules ih hbase hexpanded hn
      | false =>
          rw [plainPotential, if_neg (by simp [hsum])]
          exact ((reaches_raiseBase_leaf hplain hsum).and hcanonical).mono
            fun node hnode => hnode.symm

/-! ## Two powers of one base -/

theorem exists_addExponents_constant (hrules : rules.Admissible mode)
    (hp : Canonical.IsExponent rules power) (hq : Canonical.IsExponent rules power') :
    ∃ sum, addExponents power power' = .ok sum ∧ Canonical.IsExponent rules sum ∧
      sum.constant = power.constant + power'.constant := by
  obtain ⟨sum, hplus, hsum, hlinear⟩ :=
    totals_plus hrules.constant (canonical_asNode hp) (canonical_asNode hq)
  have hconstant : (asExponent sum).constant = power.constant + power'.constant := by
    have hasNode : asNode (asExponent sum) = sum := by cases sum <;> rfl
    rw [Exponent.constant, hasNode, hlinear, Finsupp.add_apply]
    rfl
  by_cases hrational : ∃ p q, power = .rational p ∧ power' = .rational q
  · obtain ⟨p, q, rfl, rfl⟩ := hrational
    refine ⟨.rational (p + q), rfl, .rational _, ?_⟩
    simp only [Exponent.constant_rational]
  · refine ⟨asExponent sum, ?_, isExponent_asExponent hsum, hconstant⟩
    cases power <;> cases power' <;>
      first
        | exact absurd ⟨_, _, rfl, rfl⟩ hrational
        | (simp only [addExponents, hplus, bind, Except.bind]; rfl)

/-- What comes out of two factors in one slot. -/
def IsMerged (rules : Discipline) (a b node : Expr) : Prop :=
  IsTermWithin rules (a.potential + b.potential) node ∧
    (a.group ≠ .radical → node.potential < a.potential + b.potential)

theorem reaches_combinePowers (hrules : rules.Admissible mode) (hmode : mode.numeric = false)
    (ih : Multiplies rules mode (a.load + b.load)) (ha : Canonical rules a)
    (hb : Canonical rules b) (hafactor : a.isFactor = true) (hbfactor : b.isFactor = true)
    (hkey : a.multiplicativeKey = b.multiplicativeKey) :
    Reaches (fun depth => combinePowers mode depth a b) (IsMerged rules a b) := by
  have haload := load_of_isFactor hafactor
  have hbload := load_of_isFactor hbfactor
  obtain ⟨power, hadd, hpower, hconstant⟩ :=
    exists_addExponents_constant hrules ha.exponent hb.exponent
  -- all that is left is a power of the base within the potential of the two factors
  suffices hraise : Reaches (fun depth => raiseBase mode depth a.baseOf power)
      (IsMerged rules a b) by
    refine .succ rfl ?_
    simp only [combinePowers, hadd]
    refine hraise.bind fun raised hraised => ?_
    refine .ok ⟨hraised.1.scale hrules.toHereditary _, fun hgroup => ?_⟩
    exact (potential_scale_le _ _).trans_lt (hraised.2 hgroup)
  cases ha.sameBase hb hafactor hbfactor hkey with
  | @radical c c' base p p' =>
      have hpotential (c p : Rat) : (Expr.radical c base p).potential = rootPotential base := by
        rw [potential]
      cases ha with
      | radical _ hradical =>
          rw [haload, hbload, hpotential, hpotential] at ih
          obtain rfl : .rational (p + p') = power := Except.ok.inj hadd
          refine .succ rfl ?_
          simp only [baseOf, raiseBase, asNode, asExponent]
          refine (reaches_numberPower_radical hrules hmode hradical ih (by omega)).mono
            fun node hnode => ⟨hnode.mono ?_, fun hgroup => absurd rfl hgroup⟩
          rw [hpotential]
          omega
  | @constant c c' base exponent exponent' =>
      rw [haload, hbload, potential_constantBase, potential_constantBase] at ih
      cases ha with
      | plainBase _ hplain => cases hplain
      | constantBase _ hzero =>
          refine (reaches_raiseBase_number hrules hmode ih (by omega) hzero hpower).mono
            fun node hnode => ?_
          rw [IsMerged, potential_constantBase, potential_constantBase]
          exact ⟨hnode.mono (by omega), fun _ => by have := hnode.within.2; omega⟩
  | plain haplain hbplain hcontent =>
      have habase := ha.baseOf hrules
      have hlt := plainPotential_add_lt a.baseOf a.exponent.constant b.exponent.constant
      rw [← hconstant, ← ha.potential_eq_plainPotential hafactor haplain,
        plainPotential_eq_of_content habase (hb.baseOf hrules) hcontent b.exponent.constant,
        ← hb.potential_eq_plainPotential hbfactor hbplain] at hlt
      refine (reaches_raiseBase_plain hrules hmode ih habase haplain hpower (by omega)).mono
        fun node hnode => ?_
      have hnodelt := hnode.2.trans_lt hlt
      exact ⟨⟨⟨hnode.1, hnodelt.le⟩, .inr hnodelt⟩, fun _ => hnodelt⟩

end Reduce

end ExactAlgebra
