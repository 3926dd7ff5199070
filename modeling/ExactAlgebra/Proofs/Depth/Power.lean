import ExactAlgebra.Proofs.Depth.Product

/-!
# Powers reach a result

All powers of canonical expressions reach a canonical result, except for those powers of
zero that have none.
-/

namespace ExactAlgebra.Reduce

open ExactAlgebra.Expr

variable {mode : Mode} {rules : Discipline} {a b base exponent : Expr} {value p : Rat}
  {power power' : Exponent}

/-! ## Products -/

theorem reaches_multiply (hrules : rules.Admissible mode) (hmode : mode.numeric = false)
    (ha : Canonical rules a) (hb : Canonical rules b) :
    Reaches (fun depth => combineFactors mode depth a b) (Canonical rules) :=
  (multiplies hrules hmode _ ha hb (Nat.lt_succ_self _)).mono fun _ hnode => hnode.within.1

/-- Expressions that are multiplied in one by one. -/
theorem reaches_foldlM_multiply (hrules : rules.Admissible mode) (hmode : mode.numeric = false)
    {factors : List Expr} (ha : Canonical rules a)
    (hfactors : ∀ factor ∈ factors, Canonical rules factor) :
    Reaches (fun depth => factors.foldlM (fun result factor =>
      combineFactors mode depth result factor) a) (Canonical rules) := by
  refine .foldlM (fun _ => Canonical rules) ha fun before factor after hsplit result hresult => ?_
  exact reaches_multiply hrules hmode hresult (hfactors factor (by simp [hsplit]))

theorem reaches_multiplyPowers (hrules : rules.Admissible mode) (hmode : mode.numeric = false)
    (hp : Canonical.IsExponent rules power) (hq : Canonical.IsExponent rules power') :
    Reaches (fun depth => multiplyPowers mode depth power power')
      (Canonical.IsExponent rules) := by
  refine .succ rfl ?_
  by_cases hrational : ∃ p q, power = .rational p ∧ power' = .rational q
  · obtain ⟨p, q, rfl, rfl⟩ := hrational
    exact .ok (.rational (p * q))
  · have hstep (depth : Nat) : multiplyPowers mode (depth + 1) power power' = do
        return asExponent (← combineFactors mode depth (asNode power) (asNode power')) := by
      rw [multiplyPowers.eq_def]
      cases power <;> cases power' <;> first | exact absurd ⟨_, _, rfl, rfl⟩ hrational | rfl
    simp only [hstep]
    refine (reaches_multiply hrules hmode (canonical_asNode hp) (canonical_asNode hq)).bind
      fun node hnode => ?_
    exact .ok (isExponent_asExponent hnode)

/-! ## Constants -/

/-- A constant has a power unless it is zero and the exponent is not positive. -/
theorem reaches_constantPower (hrules : rules.Admissible mode) (hmode : mode.numeric = false)
    (h : value = 0 → 0 < p) :
    Reaches (fun depth => numberPower mode depth value p) (Canonical rules) := by
  by_cases hvalue : value = 0
  · have hpos := h hvalue
    refine .succ rfl ?_
    simp only [numberPower, hvalue, hpos, if_true]
    exact .ok (.number 0)
  · exact (reaches_numberPower hrules hmode hvalue (multiplies hrules hmode 18) le_rfl).mono
      fun node hnode => hnode.within.1

/-- The fault of a power of zero. -/
def zeroFault (p : Rat) : Fault := if p = 0 then .zeroToZero else .zeroToNegative p

theorem settles_zeroPower (hp : p ≤ 0) :
    Settles (fun depth => numberPower mode depth 0 p) (.error (zeroFault p)) := by
  refine .succ rfl ?_
  unfold zeroFault
  simp only [numberPower, if_true, if_neg hp.not_gt]
  split_ifs <;> exact .const _

/-! ## Bases -/

/-- A base has a power unless it is zero and the exponent is a constant that is not positive. -/
def HasPower (base : Expr) (power : Exponent) : Prop :=
  base = .number 0 → ∀ p, power = .rational p → 0 < p

theorem HasPower.of_ne (h : base ≠ .number 0) : HasPower base power :=
  fun hbase => absurd hbase h

/-- The powers of some factors, which are no products and not zero. -/
theorem reaches_raiseFactors (hrules : rules.Admissible mode) (hmode : mode.numeric = false)
    {coeff : Rat} {factors : List Expr} (hfactors : ∀ factor ∈ factors, Canonical rules factor)
    (hpower : Canonical.IsExponent rules power)
    (hraise : ∀ factor ∈ factors, ∀ product, Canonical.IsExponent rules product →
      Reaches (fun depth => raiseBase mode depth factor.baseOf product) (Canonical rules)) :
    Reaches (fun depth => raiseFactors mode depth coeff factors power) (Canonical rules) := by
  refine .succ rfl ?_
  simp only [raiseFactors]
  refine .foldlM (fun _ => Canonical rules) (.number coeff)
    fun before factor after hsplit result hresult => ?_
  have hmem : factor ∈ factors := by simp [hsplit]
  exact (reaches_multiplyPowers hrules hmode (hfactors factor hmem).exponent hpower).bind
    fun product hproduct => (hraise factor hmem product hproduct).bind
      fun raised hraised => reaches_multiply hrules hmode hresult hraised

/-- Any power of a base that is no product. -/
theorem reaches_raiseBase_of_not_product (hrules : rules.Admissible mode)
    (hmode : mode.numeric = false) (hbase : Canonical rules base) (hshape : base.IsBase)
    (hgroup : base.group ≠ .product) (hpower : Canonical.IsExponent rules power)
    (h : HasPower base power) :
    Reaches (fun depth => raiseBase mode depth base power) (Canonical rules) := by
  cases hshape with
  | product => exact absurd rfl hgroup
  | plain hplain =>
      exact (reaches_raiseBase_plain hrules hmode (multiplies hrules hmode _) hbase hplain hpower
        le_rfl).mono fun node hnode => hnode.1
  | number value =>
      refine .succ rfl ?_
      simp only [raiseBase, asExponent_asNode hpower]
      cases hpower with
      | rational p =>
          exact reaches_constantPower hrules hmode fun hvalue => h (by rw [hvalue]) p rfl
      | symbolic hnode hnumber =>
          exact (reaches_exponential_number hrules hmode (multiplies hrules hmode 38) le_rfl hnode
            hnumber value).mono fun node hnode => hnode.within.1

theorem baseOf_ne_zero (h : Canonical rules a) (hnumber : a.isNumber = false) :
    a.baseOf ≠ .number 0 := by
  have hradical {base power : Rat} (h : IsRadical base power) : base ≠ 0 := by
    rcases h with ⟨-, htwo, -⟩ | ⟨rfl, -⟩
    · linarith
    · norm_num
  cases h with
  | number => cases hnumber
  | radical _ h => simpa [Expr.baseOf] using hradical h
  | constantBase _ hzero => simpa [Expr.baseOf] using hzero
  | @plainBase coeff base _ _ hplain =>
      change base ≠ .number 0
      rintro rfl
      cases hplain
  | symbol | call | polynomial | product | composite => exact Expr.noConfusion

theorem group_baseOf_ne_product (h : Canonical rules a) (hgroup : a.group ≠ .product) :
    a.baseOf.group ≠ .product := by
  cases h with
  | product => exact absurd rfl hgroup
  | @plainBase coeff base _ _ hplain =>
      change base.group ≠ .product
      intro hbase
      cases base <;> simp only [group, reduceCtorEq] at hbase
      cases hplain
  | _ => exact Group.noConfusion

/-- The powers of the factors of a product. -/
theorem reaches_raiseProduct (hrules : rules.Admissible mode) (hmode : mode.numeric = false)
    {coeff c : Rat} {factors : Slots} (h : Canonical rules (.product c 1 factors))
    (hpower : Canonical.IsExponent rules power) :
    Reaches (fun depth => raiseFactors mode depth coeff (Slots.children factors) power)
      (Canonical rules) := by
  obtain ⟨c, factors, hproduct, -, hslots, hchildren⟩ := product_of_group h rfl
  cases hproduct
  refine reaches_raiseFactors hrules hmode (List.forall_mem_map.mpr hchildren) hpower
    (List.forall_mem_map.mpr fun slot hslot product hproduct => ?_)
  obtain ⟨hnumber, hgroup, -⟩ := isFactor_iff.mp (hslots.factor slot hslot)
  have hchild := hchildren slot hslot
  exact reaches_raiseBase_of_not_product hrules hmode (hchild.baseOf hrules) hchild.isBase_baseOf
    (group_baseOf_ne_product hchild hgroup) hproduct (.of_ne (baseOf_ne_zero hchild hnumber))

theorem reaches_exponential (hrules : rules.Admissible mode) (hmode : mode.numeric = false)
    (hbase : Canonical rules base) (hshape : base.IsBase) (hexponent : Canonical rules exponent)
    (hnumber : exponent.isNumber = false) :
    Reaches (fun depth => Reduce.exponential mode depth base exponent) (Canonical rules) := by
  cases hshape with
  | number value =>
      exact (reaches_exponential_number hrules hmode (multiplies hrules hmode 38) le_rfl hexponent
        hnumber value).mono fun node hnode => hnode.within.1
  | plain hplain =>
      refine .succ rfl ?_
      simp only [exponential_of_isPlain hplain]
      exact .ok (.plainBase one_ne_zero hplain (hrules.plainBase hplain) hbase hexponent hnumber)
  | product factors =>
      refine .succ rfl ?_
      simp only [Reduce.exponential]
      exact reaches_raiseProduct hrules hmode hbase (.symbolic hexponent hnumber)

/-- Any power of a base. -/
theorem reaches_raiseBase (hrules : rules.Admissible mode) (hmode : mode.numeric = false)
    (hbase : Canonical rules base) (hshape : base.IsBase)
    (hpower : Canonical.IsExponent rules power) (h : HasPower base power) :
    Reaches (fun depth => raiseBase mode depth base power) (Canonical rules) := by
  cases hshape with
  | number value =>
      exact reaches_raiseBase_of_not_product hrules hmode hbase (.number value)
        Group.noConfusion hpower h
  | plain hplain =>
      refine reaches_raiseBase_of_not_product hrules hmode hbase (.plain hplain) ?_ hpower h
      intro hgroup
      cases base <;> simp only [group, reduceCtorEq] at hgroup
      cases hplain
  | product factors =>
      refine .succ rfl ?_
      simp only [raiseBase, asExponent_asNode hpower]
      cases hpower with
      | symbolic hexponent hnumber =>
          exact reaches_exponential hrules hmode hbase (.product factors) hexponent hnumber
      | rational p =>
          dsimp only
          split_ifs
          · exact .ok (.number 1)
          · exact .ok hbase
          · exact reaches_raiseProduct hrules hmode hbase (.rational p)

/-! ## Powers of expressions -/

/-- A rational power of an expression that is no constant. -/
theorem reaches_raiseTo_rational (hrules : rules.Admissible mode) (hmode : mode.numeric = false)
    (ha : Canonical rules a) (hnumber : a.isNumber = false) (p : Rat) :
    Reaches (fun depth => raiseTo mode depth a (.number p)) (Canonical rules) := by
  have hstep (depth : Nat) : raiseTo mode (depth + 1) a (.number p) =
      if p = 0 then .ok (.number 1)
      else (do
        let power ← multiplyPowers mode depth a.exponent (.rational p)
        let result ← raiseBase mode depth a.baseOf power
        if a.coeff = 1 then return result
        else combineFactors mode depth (← numberPower mode depth a.coeff p) result) := by
    rw [raiseTo.eq_def]
    cases a <;> first | rfl | cases hnumber
  refine .succ rfl ?_
  simp only [hstep]
  split_ifs with hzero hcoeff
  · exact .ok (.number 1)
  all_goals
    refine (reaches_multiplyPowers hrules hmode ha.exponent (.rational p)).bind
      fun power hpower => ?_
    refine (reaches_raiseBase hrules hmode (ha.baseOf hrules) ha.isBase_baseOf hpower
      (.of_ne (baseOf_ne_zero ha hnumber))).bind fun result hresult => ?_
  · exact .ok hresult
  · have hne := ha.coeff_ne_zero hnumber
    exact (reaches_constantPower hrules hmode fun hvalue => absurd hvalue hne).bind
      fun factor hfactor => reaches_multiply hrules hmode hfactor hresult

/-- A power with an exponent that is no constant. -/
theorem reaches_raiseTo_symbolic (hrules : rules.Admissible mode) (hmode : mode.numeric = false)
    (ha : Canonical rules a) (hb : Canonical rules b) (hnumber : b.isNumber = false) :
    Reaches (fun depth => raiseTo mode depth a b) (Canonical rules) := by
  refine .succ rfl ?_
  cases hanumber : a.isNumber with
  | true =>
      obtain ⟨value, rfl⟩ := exists_eq_number hanumber
      have hstep (depth : Nat) : raiseTo mode (depth + 1) (.number value) b =
          Reduce.exponential mode depth (.number value) b := by
        rw [raiseTo.eq_def]
        cases b <;> first | rfl | cases hnumber
      simp only [hstep]
      exact reaches_exponential hrules hmode ha (.number value) hb hnumber
  | false =>
      have hstep (depth : Nat) : raiseTo mode (depth + 1) a b = (do
          let power ← multiplyPowers mode depth a.exponent (.symbolic b)
          let result ← raiseBase mode depth a.baseOf power
          if a.coeff = 1 then return result
          else combineFactors mode depth (← exponential mode depth (.number a.coeff) b) result) := by
        rw [raiseTo.eq_def]
        cases b <;> simp only [isNumber, Bool.true_eq_false] at hnumber <;>
          cases a <;> first | rfl | cases hanumber
      simp only [hstep]
      refine (reaches_multiplyPowers hrules hmode ha.exponent (.symbolic hb hnumber)).bind
        fun power hpower => ?_
      refine (reaches_raiseBase hrules hmode (ha.baseOf hrules) ha.isBase_baseOf hpower
        (.of_ne (baseOf_ne_zero ha hanumber))).bind fun result hresult => ?_
      split_ifs
      · exact .ok hresult
      · exact (reaches_exponential hrules hmode (.number _) (.number _) hb hnumber).bind
          fun factor hfactor => reaches_multiply hrules hmode hfactor hresult

/-- A power of zero to a constant that is not positive. -/
def IsUndefined (a b : Expr) : Prop := ∃ p, a = .number 0 ∧ b = .number p ∧ p ≤ 0

theorem reaches_raiseTo (hrules : rules.Admissible mode) (hmode : mode.numeric = false)
    (ha : Canonical rules a) (hb : Canonical rules b) (h : ¬ IsUndefined a b) :
    Reaches (fun depth => raiseTo mode depth a b) (Canonical rules) := by
  cases hbnumber : b.isNumber with
  | false => exact reaches_raiseTo_symbolic hrules hmode ha hb hbnumber
  | true =>
      obtain ⟨p, rfl⟩ := exists_eq_number hbnumber
      cases hanumber : a.isNumber with
      | false => exact reaches_raiseTo_rational hrules hmode ha hanumber p
      | true =>
          obtain ⟨value, rfl⟩ := exists_eq_number hanumber
          refine .succ rfl ?_
          simp only [raiseTo]
          refine reaches_constantPower hrules hmode fun hvalue => ?_
          by_contra hp
          exact h ⟨p, by rw [hvalue], rfl, not_lt.mp hp⟩

theorem settles_raiseTo_zero (hp : p ≤ 0) :
    Settles (fun depth => raiseTo mode depth (.number 0) (.number p)) (.error (zeroFault p)) := by
  refine .succ rfl ?_
  simp only [raiseTo]
  exact settles_zeroPower hp

end ExactAlgebra.Reduce
