import ExactAlgebra.Proofs.Canonical.PowerProduct
import ExactAlgebra.Proofs.Depth.Expand

/-!
# Powers of constants

Rational powers of constants are products of few roots, and other powers are products of
few roots and one exponential.  Their potential is less than that of two exponentials, so
they may be multiplied out when two exponentials merge.
-/

namespace ExactAlgebra.Reduce

open ExactAlgebra.Expr

variable {mode : Mode} {rules : Discipline} {a b node factor : Expr} {bound bound' n : Nat}
  {p value : Rat} {roots radicals : List (Rat × Rat)}

/-! ## Products of terms -/

/-- A product of terms within a bound: a term, unless it is below the bound. -/
structure IsTermWithin (rules : Discipline) (bound : Nat) (node : Expr) : Prop where
  within : Within rules bound node
  term : node.isExpandedSum = false ∨ node.potential < bound

theorem IsTermWithin.number (value : Rat) : IsTermWithin rules bound (.number value) :=
  ⟨⟨.number value, Nat.zero_le _⟩, .inl rfl⟩

theorem IsTermWithin.mono (h : IsTermWithin rules bound node) (hle : bound ≤ bound') :
    IsTermWithin rules bound' node :=
  ⟨h.within.mono hle, h.term.imp_right fun hlt => hlt.trans_le hle⟩

theorem IsTermWithin.scale (hrules : rules.Hereditary) (c : Rat)
    (h : IsTermWithin rules bound node) : IsTermWithin rules bound (scale c node) := by
  by_cases hc : c = 0
  · rw [hc, scale_zero]
    exact .number 0
  · refine ⟨⟨canonical_scale hrules.constant hc h.within.1, ?_⟩, ?_⟩
    · rw [potential_scale hc]
      exact h.within.2
    · rw [potential_scale hc, isExpandedSum_scale hc]
      exact h.term

theorem IsTermWithin.load_le (h : IsTermWithin rules bound node) : node.load ≤ 5 * bound + 1 := by
  have hle := h.within.2
  rcases h.term with hsum | hlt
  · exact (load_le_of_not_isExpandedSum hsum).trans (by omega)
  · exact (Expr.load_le node).trans (by omega)

/-- The product of two terms within bounds. -/
theorem IsTermWithin.of_product (ha : IsTermWithin rules bound a)
    (hb : IsTermWithin rules bound' b) (h : IsProductOf rules a b node) :
    IsTermWithin rules (bound + bound') node := by
  have hale := ha.within.2
  have hble := hb.within.2
  refine ⟨h.within.mono (Nat.add_le_add hale hble), ?_⟩
  have hle := h.within.2
  rcases ha.term with hasum | halt
  · rcases hb.term with hbsum | hblt
    · exact (h.term hasum hbsum).imp_right fun hlt => by omega
    · exact .inr (by omega)
  · exact .inr (by omega)

theorem reaches_terms (ih : Multiplies rules mode n) (ha : IsTermWithin rules bound a)
    (hb : IsTermWithin rules bound' b) (hn : 5 * (bound + bound') + 2 < n) :
    Reaches (fun depth => combineFactors mode depth a b)
      (IsTermWithin rules (bound + bound')) := by
  have haload := ha.load_le
  have hbload := hb.load_le
  exact (ih ha.within.1 hb.within.1 (by omega)).mono fun node hnode => ha.of_product hb hnode

theorem reaches_factor (ih : Multiplies rules mode n) (ha : IsTermWithin rules bound a)
    (hfactor : Canonical rules factor) (hshape : factor.isFactor = true)
    (hn : 5 * (bound + factor.potential) + 1 < n) :
    Reaches (fun depth => combineFactors mode depth a factor)
      (IsTermWithin rules (bound + factor.potential)) := by
  have haload := ha.load_le
  have hload := load_of_isFactor hshape
  refine (ih ha.within.1 hfactor (by omega)).mono fun node hnode => ?_
  exact ha.of_product ⟨⟨hfactor, le_rfl⟩, .inl (isFactor_iff.mp hshape).2.2⟩ hnode

/-- Factors that are multiplied in one by one. -/
theorem reaches_factors (ih : Multiplies rules mode n) {factors : List Expr}
    (ha : IsTermWithin rules bound a)
    (hfactors : ∀ factor ∈ factors, Canonical rules factor ∧ factor.isFactor = true)
    (hn : 5 * (bound + (factors.map potential).sum) + 1 < n) :
    Reaches (fun depth => factors.foldlM (combineFactors mode depth) a)
      (IsTermWithin rules (bound + (factors.map potential).sum)) := by
  refine .foldlM (fun before => IsTermWithin rules (bound + (before.map potential).sum))
    (by simpa using ha) ?_
  intro before factor after hsplit result hresult
  obtain ⟨hfactor, hshape⟩ := hfactors factor (by simp [hsplit])
  have hsum : (factors.map potential).sum =
      (before.map potential).sum + (factor.potential + (after.map potential).sum) := by
    rw [hsplit, List.map_append, List.sum_append, List.map_cons, List.sum_cons]
  have hstep := reaches_factor ih hresult hfactor hshape (by omega)
  simpa [add_assoc] using hstep

/-! ## Products of radicals -/

theorem potential_radicalOf (root : Rat × Rat) :
    (radicalOf root).potential = rootPotential root.1 := by
  rw [radicalOf, potential]

theorem totalPotential_keyed (factors : List Expr) :
    totalPotential (keyed factors) = (factors.map potential).sum := by
  rw [Slots.totalPotential_eq, keyed, List.map_map]
  rfl

theorem sum_potential_radicals (roots : List (Rat × Rat)) :
    ((roots.map radicalOf).map potential).sum = rootsPotential roots := by
  rw [List.map_map, rootsPotential]
  exact congrArg List.sum (List.map_congr_left fun root _ => potential_radicalOf root)

theorem isTermWithin_productOf (hrules : rules.Admissible mode) {c : Rat} (hc : c ≠ 0)
    (hradical : ∀ root ∈ roots, IsRadical root.1 root.2) (hdistinct : (roots.map Prod.fst).Nodup)
    (hroots : rules.radicals roots) :
    IsTermWithin rules (rootsPotential roots) (productOf c (roots.map radicalOf)) := by
  have hcanonical := canonical_productOf hrules.toHereditary hc hradical hdistinct hroots
  suffices hshape : (productOf c (roots.map radicalOf)).potential = rootsPotential roots ∧
      (productOf c (roots.map radicalOf)).isExpandedSum = false from
    ⟨⟨hcanonical, hshape.1.le⟩, .inl hshape.2⟩
  match roots with
  | [] => exact ⟨by simp [productOf, potential, rootsPotential], rfl⟩
  | [root] =>
      refine ⟨?_, rfl⟩
      rw [List.map_singleton, productOf, potential_withCoeff, potential_radicalOf, rootsPotential,
        List.map_singleton, List.sum_singleton]
  | first :: second :: rest =>
      rw [productOf_of_two_le (by simp) (distinct_radicals hdistinct), potential_product,
        totalPotential_keyed, sum_potential_radicals]
      exact ⟨rfl, rfl⟩

theorem isFactor_imaginary (mode : Mode) : (Expr.named mode.imaginary).isFactor = true := rfl

theorem potential_imaginary (mode : Mode) : (Expr.named mode.imaginary).potential = 1 := by
  rw [named, potential]

/-- Units that come out of a product of radicals. -/
theorem sum_potential_units {extras : List Expr}
    (h : ∀ extra ∈ extras, extra = .named mode.imaginary) :
    (extras.map potential).sum = extras.length := by
  rw [List.eq_replicate_of_mem h, List.map_replicate, List.sum_replicate, potential_imaginary,
    List.length_replicate, smul_eq_mul, mul_one]

/-- A product of one or two radicals. -/
theorem reaches_combineRadicals (hrules : rules.Admissible mode) (hmode : mode.numeric = false)
    (ih : Multiplies rules mode n) (hradicals : ∀ radical ∈ radicals, IsFactorable radical.1)
    (hturns : ∀ power ∈ turns radicals, IsRadical (-1) power) (hlength : radicals.length ≤ 2)
    (hn : 5 * rootsPotential radicals ≤ n) :
    Reaches (fun depth => do
      let form ← combineRadicals mode radicals
      buildProduct mode depth form.coefficient form.factors form.extras)
      (IsTermWithin rules (rootsPotential radicals)) := by
  obtain ⟨form, roots, hok, hform, hdistinct, hle, hlt⟩ :=
    exists_isForm_potential hmode hradicals hturns
  have hstart := isTermWithin_productOf hrules hform.coefficient hform.radical
    (hdistinct hlength) (hrules.form hradicals hok hform.factors)
  simp only [hok, bind, Except.bind, hform.factors]
  refine .succ rfl ?_
  simp only [buildProduct]
  match hextras : form.extras with
  | [] =>
      rw [hextras, List.length_nil, add_zero] at hle
      exact .ok (hstart.mono hle)
  | extra :: rest =>
      have hunits := sum_potential_units hform.extras
      have hlt' := hlt (.inl (by simp [hextras]))
      rw [← hextras]
      have hfactors : ∀ extra ∈ form.extras,
          Canonical rules extra ∧ extra.isFactor = true := fun extra hextra => by
        rw [hform.extras extra hextra]
        exact ⟨canonical_imaginary hrules, rfl⟩
      exact (reaches_factors ih hstart hfactors (by omega)).mono fun node hnode =>
        hnode.mono (by omega)

/-! ## Rational powers -/

/-- A rational power of a positive integer. -/
theorem reaches_numberPower_nat (hrules : rules.Admissible mode) (hmode : mode.numeric = false)
    {k : Nat} (hk : 1 ≤ k) (ih : Multiplies rules mode n) (hn : 5 * rootPotential k ≤ n) :
    Reaches (fun depth => numberPower mode depth k p)
      (IsTermWithin rules (rootPotential k)) := by
  have hzero : (k : Rat) ≠ 0 := by exact_mod_cast (by omega : k ≠ 0)
  have hneg : ¬ (k : Rat) < 0 := not_lt.mpr (Nat.cast_nonneg k)
  refine .succ rfl ?_
  simp only [numberPower, hzero, if_false, hneg, hmode, Bool.false_eq_true, Rat.den_natCast, ne_eq,
    not_true_eq_false]
  split_ifs
  · exact .ok (.number 1)
  · exact .ok (.number _)
  · have hturns : turns [((k : Rat), p)] = [] := by
      have hne : (k : Rat) ≠ -1 := fun h => hneg (by rw [h]; norm_num)
      simp [turns, hne]
    have hsum : rootsPotential [((k : Rat), p)] = rootPotential k := by simp [rootsPotential]
    rw [← hsum] at hn ⊢
    exact reaches_combineRadicals hrules hmode ih
      (List.forall_mem_singleton.mpr (.inr ⟨k, hk, rfl⟩)) (by simp [hturns]) (by simp) hn

/-- A rational power of a negative number, from that of its magnitude. -/
theorem reaches_numberPower_neg (hrules : rules.Admissible mode) (hmode : mode.numeric = false)
    (hneg : value < 0) (ih : Multiplies rules mode n) (hn : 5 * (bound + 1) + 1 < n)
    (hmagnitude : Reaches (fun depth => numberPower mode depth (-value) p)
      (IsTermWithin rules bound)) :
    Reaches (fun depth => numberPower mode depth value p) (IsTermWithin rules (bound + 1)) := by
  refine .succ rfl ?_
  simp only [numberPower, hneg.ne, hneg, if_false, if_true]
  split_ifs
  · exact .ok (.number 1)
  · exact .ok (.number _)
  · refine hmagnitude.bind fun magnitude hmagnitude => ?_
    obtain ⟨sign, extra, hok, -, hextra⟩ := negativeOnePower_cases hmode p
    have hscaled := hmagnitude.scale hrules.toHereditary sign
    simp only [hok, bind, Except.bind]
    cases hextra with
    | real => exact .ok (hscaled.mono (Nat.le_succ bound))
    | imaginary =>
        have hone := potential_imaginary mode
        have hproduct := reaches_factor ih hscaled (canonical_imaginary hrules)
          (isFactor_imaginary mode) (by omega)
        rwa [hone] at hproduct
    | @root power hroot =>
        have hone : (Expr.radical 1 (-1) power).potential = 1 := by simp [potential, rootPotential]
        have hproduct := reaches_factor ih hscaled
          (.radical one_ne_zero hroot (radicals_negativeOnePower hrules hok)) rfl (by omega)
        rwa [hone] at hproduct

theorem exists_eq_natCast {q : Rat} (hden : q.den = 1) (hpos : 0 < q) :
    ∃ k : Nat, 1 ≤ k ∧ q = k := by
  obtain rfl | ⟨k, hk, hvalue⟩ := isFactorable_of_pos hden hpos
  · norm_num at hpos
  · exact ⟨k, hk, hvalue⟩

theorem reaches_numberPower_pos (hrules : rules.Admissible mode) (hmode : mode.numeric = false)
    (hpos : 0 < value) (ih : Multiplies rules mode n) (hn : 13 ≤ n) :
    Reaches (fun depth => numberPower mode depth value p) (IsTermWithin rules 2) := by
  have hinteger {k : Nat} (hk : 1 ≤ k) (p : Rat) :
      Reaches (fun depth => numberPower mode depth k p) (IsTermWithin rules 1) := by
    have hone := rootPotential_le_one k
    exact (reaches_numberPower_nat hrules hmode hk ih (by omega)).mono
      fun node hnode => hnode.mono hone
  by_cases hden : value.den = 1
  · obtain ⟨k, hk, rfl⟩ := exists_eq_natCast hden hpos
    exact (hinteger hk p).mono fun node hnode => hnode.mono (by omega)
  · have hnum : ((value.num.toNat : Nat) : Rat) = value.num := by
      exact_mod_cast Int.toNat_of_nonneg (Rat.num_pos.mpr hpos).le
    have hnumpos : 1 ≤ value.num.toNat := by
      have := Rat.num_pos.mpr hpos
      omega
    refine .succ rfl ?_
    simp only [numberPower, hpos.ne', if_false, hpos.le.not_gt, hmode, Bool.false_eq_true, hden,
      ne_eq, not_false_eq_true, if_true, ← hnum]
    split_ifs
    · exact .ok (.number 1)
    · exact .ok (.number _)
    · exact (hinteger hnumpos p).bind fun above habove =>
        (hinteger value.den_pos (-p)).bind fun below hbelow =>
          reaches_terms ih habove hbelow (by omega)

/-- A rational power of a constant that is not zero. -/
theorem reaches_numberPower (hrules : rules.Admissible mode) (hmode : mode.numeric = false)
    (hvalue : value ≠ 0) (ih : Multiplies rules mode n) (hn : 18 ≤ n) :
    Reaches (fun depth => numberPower mode depth value p) (IsTermWithin rules 3) := by
  rcases lt_or_gt_of_ne hvalue with hneg | hpos
  · exact reaches_numberPower_neg hrules hmode hneg ih (by omega)
      (reaches_numberPower_pos hrules hmode (neg_pos.mpr hneg) ih (by omega))
  · exact (reaches_numberPower_pos hrules hmode hpos ih (by omega)).mono
      fun node hnode => hnode.mono (by omega)

/-- The sum of two exponents of radicals with one base. -/
theorem reaches_numberPower_radical (hrules : rules.Admissible mode) (hmode : mode.numeric = false)
    {power : Rat} (hradical : IsRadical value power) (ih : Multiplies rules mode n)
    (hn : 10 * rootPotential value ≤ n) :
    Reaches (fun depth => numberPower mode depth value p)
      (IsTermWithin rules (rootPotential value)) := by
  rcases hradical with ⟨hden, htwo, -⟩ | ⟨rfl, -⟩
  · obtain ⟨k, hk, rfl⟩ := exists_eq_natCast hden (by linarith)
    exact reaches_numberPower_nat hrules hmode hk ih (by omega)
  · have hone : rootPotential (-1) = 1 := if_pos rfl
    rw [hone] at hn ⊢
    refine reaches_numberPower_neg hrules hmode (by norm_num) ih (by omega) (.succ rfl ?_)
    simp only [numberPower, neg_neg, one_ne_zero, if_false, or_true, if_true]
    exact .ok (.number 1)

/-! ## Other powers -/

/-- A power of a reduced base with an exponent without constant term. -/
theorem reaches_raiseBase_reduced (hrules : rules.Admissible mode) (hzero : value ≠ 0)
    (hone : value ≠ 1) (hreduced : IsReduced value) {exponent : Expr}
    (hexponent : Canonical rules exponent) (hconstant : exponent.linear constantMark = 0) :
    Reaches (fun depth => raiseBase mode depth (.number value) (asExponent exponent))
      (IsTermWithin rules 4) := by
  refine .succ rfl ?_
  simp only [raiseBase, asExponent_asNode_asExponent]
  cases hnumber : exponent.isNumber with
  | true =>
      obtain ⟨c, rfl⟩ := exists_eq_number hnumber
      obtain rfl : c = 0 := by simpa using hconstant
      refine .succ rfl ?_
      simp only [numberPower, hzero, if_false]
      exact .ok (.number 1)
  | false =>
      have hterm : constantTerm exponent = 0 :=
        (constantTerm_eq_linear hexponent hnumber).trans hconstant
      have hcanonical : Canonical rules (.exponential 1 (.number value) exponent) := by
        have hrule : constantTerm (reduceBase value exponent).2 = 0 →
            rules.exponential (.number (reduceBase value exponent).1)
              (reduceBase value exponent).2 := hrules.constantBase hzero hone
        rw [hreduced exponent] at hrule
        exact .constantBase one_ne_zero hzero hone (hrule hterm) hexponent hnumber
      simp only [asExponent_of_not_isNumber hnumber]
      refine .succ rfl ?_
      simp only [exponential_constantBase hzero hone (hreduced exponent) hterm]
      exact .ok ⟨⟨hcanonical, (potential_constantBase _ _ _).le⟩, .inl rfl⟩

/-- A constant to the power of an expression that is no constant. -/
theorem reaches_exponential_number (hrules : rules.Admissible mode) (hmode : mode.numeric = false)
    (ih : Multiplies rules mode n) (hn : 38 ≤ n) {exponent : Expr}
    (hexponent : Canonical rules exponent) (hnumber : exponent.isNumber = false) (value : Rat) :
    Reaches (fun depth => exponential mode depth (.number value) exponent)
      (IsTermWithin rules 7) := by
  refine .succ rfl ?_
  simp only [Reduce.exponential]
  by_cases htrivial : value = 0 ∨ value = 1
  · simp only [if_pos htrivial]
    exact .ok (.number value)
  simp only [if_neg htrivial]
  obtain ⟨hzero, hone⟩ := not_or.mp htrivial
  obtain ⟨hbzero, hbone, factor, hfactor, hscale⟩ := reduceBase_spec hzero hone exponent
  have hreduced := isReduced_reduceBase value exponent
  generalize hbase : reduceBase value exponent = reduced at hbzero hbone hscale hreduced
  obtain ⟨base, exponent'⟩ := reduced
  dsimp only at hbzero hbone hscale hreduced ⊢
  have hexponent' : Canonical rules exponent' := by
    rw [hscale]
    exact canonical_scale hrules.constant hfactor hexponent
  have hnumber' : exponent'.isNumber = false := by
    rw [hscale, isNumber_scale hfactor, hnumber]
  have hconstant := constantTerm_eq_linear hexponent' hnumber'
  by_cases hterm : constantTerm exponent' = 0
  · have hrule : constantTerm (reduceBase value exponent).2 = 0 →
        rules.exponential (.number (reduceBase value exponent).1) (reduceBase value exponent).2 :=
      hrules.constantBase hzero hone
    rw [hbase] at hrule
    simp only [if_pos hterm]
    refine .ok ⟨⟨.constantBase one_ne_zero hbzero hbone (hrule hterm) hexponent' hnumber', ?_⟩,
      .inl rfl⟩
    rw [potential_constantBase]
    omega
  · simp only [if_neg hterm]
    obtain ⟨rest, hplus, hrest, hlinear⟩ := totals_plus hrules.constant hexponent'
      (.number (-constantTerm exponent'))
    have hnothing : rest.linear constantMark = 0 := by
      rw [hlinear, Finsupp.add_apply, linear_number, Finsupp.single_eq_same, hconstant,
        add_neg_cancel]
    simp only [hplus]
    exact (reaches_raiseBase_reduced hrules hbzero hbone hreduced hrest hnothing).bind
      fun result hresult => (reaches_numberPower hrules hmode hbzero ih (by omega)).bind
        fun power hpower => reaches_terms ih hpower hresult (by omega)

/-- Any power of a constant that is not zero. -/
theorem reaches_raiseBase_number (hrules : rules.Admissible mode) (hmode : mode.numeric = false)
    (ih : Multiplies rules mode n) (hn : 38 ≤ n) (hvalue : value ≠ 0) {power : Exponent}
    (hpower : Canonical.IsExponent rules power) :
    Reaches (fun depth => raiseBase mode depth (.number value) power)
      (IsTermWithin rules 7) := by
  refine .succ rfl ?_
  simp only [raiseBase, asExponent_asNode hpower]
  cases hpower with
  | rational p =>
      exact (reaches_numberPower hrules hmode hvalue ih (by omega)).mono
        fun node hnode => hnode.mono (by omega)
  | symbolic hnode hnumber =>
      exact reaches_exponential_number hrules hmode ih hn hnode hnumber value

end ExactAlgebra.Reduce
