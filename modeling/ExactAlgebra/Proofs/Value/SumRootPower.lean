import ExactAlgebra.Proofs.Value.Power
import ExactAlgebra.Proofs.Value.SumRootProduct

/-!
# Powers with roots of sums

A natural power raises each factor of a term on its own, with the multiple of its exponent, and
expands a sum; it is read as the power.  The multiple of the exponent of a root may have an integral
part, which is expanded before it meets the rest of the root, and the expansion is to be a sum.
-/

namespace ExactAlgebra

open ExactAlgebra.Expr Reduce
open ExactAlgebra.Valuation (roots)
open FormalReading (rooted)

variable {mode : Mode} {hasRoots : Key → Prop} {fuel n : Nat} {slots : Slots}
  {a base sum whole factor node : Expr} {outcome : Except Fault Expr} {p : Rat}

/-! ## Powers of factors -/

theorem FormalReading.readSlots_pow {A : Type*} [CommRing A] [Algebra Rat A]
    (V : FormalReading A) (factor : Expr) (n : Nat) :
    V.readSlots (keyed [factor]) ^ n =
      V.read (.single (.single factor.multiplicativeKey (n • factor.exponent.linear)) 1) := by
  rw [readSlots_keyed_singleton, ← map_pow, AddMonoidAlgebra.single_pow, one_pow,
    Finsupp.smul_single]

theorem multiplyPowers_rational (mode : Mode) (fuel : Nat) {rules : Discipline} {power : Exponent}
    (h : Canonical.IsExponent rules power) (p : Rat) :
    multiplyPowers mode (fuel + 2) power (.rational p) =
      .ok (asExponent (scale p (asNode power))) := by
  rw [multiplyPowers.eq_def]
  cases h with
  | rational value => rw [asNode, scale_number, asExponent]
  | symbolic _ hnumber =>
      simp only [asNode, (combineFactors_number mode fuel p _).1, bind, Except.bind]
      rfl

/-- The powers of a unit with square minus one. -/
theorem formsTerm_imaginaryPower {A : Type*} [CommRing A] [Algebra Rat A] {V : FormalReading A}
    (h : IsLoose V (.named mode.imaginary))
    (hsquare : V.readSlots (keyed [.named mode.imaginary]) ^ 2 = -1) (n : Nat) :
    FormsTerm V (.ok (imaginaryPower mode n))
      (V.readSlots (keyed [.named mode.imaginary]) ^ n) := by
  have hfour : V.readSlots (keyed [.named mode.imaginary]) ^ 4 = 1 := by
    rw [show 4 = 2 * 2 from rfl, pow_mul, hsquare, neg_one_sq]
  have hunit : FormsTerm V (.ok (.named mode.imaginary))
      (V.readSlots (keyed [.named mode.imaginary])) :=
    ⟨_, rfl, h.canonical, rfl, (congrArg V.read h.formal).trans
      (V.readSlots_keyed_singleton _).symm⟩
  have hmod : (n : Int) % 4 = (n % 4 : Nat) := rfl
  have hlt : n % 4 < 4 := Nat.mod_lt n (by decide)
  rw [pow_eq_pow_mod n hfour, imaginaryPower, hmod]
  generalize n % 4 = r at hlt
  interval_cases r
  · rw [pow_zero, ← map_one (algebraMap Rat A)]
    exact formsTerm_number V 1
  · rw [pow_one]
    exact hunit
  · rw [hsquare, ← map_one (algebraMap Rat A), ← map_neg]
    exact formsTerm_number V (-1)
  · have hscale : scale (-1) (.named mode.imaginary) = .symbol (-1) mode.imaginary 1 :=
      scale_factor (by norm_num) rfl rfl
    have hneg : FormsTerm V (.ok (scale (-1) (.named mode.imaginary))) _ := hunit.map_scale (-1)
    rw [hscale, neg_one_smul] at hneg
    rw [pow_succ, hsquare, neg_one_mul]
    exact hneg

theorem formsTerm_numberPower (fuel : Nat) (hmode : mode.numeric = false)
    (hroot : IsSmooth root.1) (n : Nat) :
    FormsTerm (rooted mode hasRoots) (numberPower mode (fuel + 2) root.1 (root.2 * n))
      ((rooted mode hasRoots).readSlots (keyed [radicalOf root]) ^ n) := by
  have hexponents : Surd.exponents [(root.1, root.2 * n)] = n • Surd.exponents [root] := by
    simp [mul_comm root.2, mul_smul, Nat.cast_smul_eq_nsmul]
  have hvalue : rootValue [(root.1, root.2 * n)] = rootValue [root] ^ n := by
    rw [rootValue, rootValue, hexponents, ← map_pow, AddMonoidAlgebra.single_pow, one_pow,
      Prod.smul_mk, smul_zero]
  rw [← List.map_singleton, readSlots_radicals, ← hvalue]
  exact (represents_numberPower_smooth hmode hroot _).formsTerm

/-- Powers of factors other than roots of sums. -/
theorem exists_raised (fuel : Nat) (hmode : mode.numeric = false)
    (h : Canonical (.rooted mode hasRoots) factor) (hfactor : factor.isFactor = true)
    (hcoeff : factor.coeff = 1) (hroot : factor.isRootSum = false) (hn : 1 ≤ n) :
    ∃ power, multiplyPowers mode (fuel + 3) factor.exponent (.rational n) = .ok power ∧
      FormsTerm (rooted mode hasRoots) (raiseBase mode (fuel + 3) factor.baseOf power)
        ((rooted mode hasRoots).readSlots (keyed [factor]) ^ n) := by
  refine ⟨_, multiplyPowers_rational mode (fuel + 1) h.exponent n, ?_⟩
  by_cases hgroup : factor.group = .radical
  · -- the multiple of the exponent may have an integral part, which becomes a coefficient
    obtain ⟨root, rfl⟩ := eq_radicalOf hgroup hcoeff
    have hpower : FormsTerm (rooted mode hasRoots) _ _ := formsTerm_numberPower fuel hmode
      (h.areSurds_radicalOf.isSmooth root List.mem_cons_self) n
    have hstep : raiseBase mode (fuel + 3) (radicalOf root).baseOf
        (asExponent (scale n (asNode (radicalOf root).exponent))) =
          numberPower mode (fuel + 2) root.1 (root.2 * n) := by
      rw [raiseBase.eq_def]
      simp only [radicalOf, Expr.exponent, degreePower, asNode, scale_number, asExponent, baseOf]
    rw [hstep]
    exact hpower
  have hloose : IsLoose (rooted mode hasRoots) factor := ⟨h, hfactor, hcoeff, hgroup⟩
  by_cases himaginary : factor.multiplicativeKey = imaginaryKey mode
  · obtain ⟨c, rfl⟩ := h.exists_eq_imaginary hfactor himaginary
    obtain rfl : c = 1 := hcoeff
    have hsquare : (rooted mode hasRoots).readSlots (keyed [.named mode.imaginary]) ^ 2 = -1 := by
      have hlinear : (Expr.named mode.imaginary).exponent.linear = .single constantMark 1 :=
        linear_number 1
      rw [FormalReading.readSlots_pow, hlinear, Finsupp.smul_single, nsmul_eq_mul, mul_one]
      exact read_imaginary mode
    have hpower := formsTerm_imaginaryPower hloose hsquare n
    have hstep : raiseBase mode (fuel + 3) (.named mode.imaginary)
        (asExponent (scale n (.number 1))) = .ok (imaginaryPower mode n) := by
      rw [scale_number, one_mul, asExponent]
      by_cases hone : n = 1
      · subst hone
        rw [raiseBase.eq_def]
        simp [asNode, asExponent]
        rfl
      · exact raiseBase_imaginary mode (fuel + 2) (by omega) (by omega)
    exact hstep ▸ hpower
  · have hsum : Canonical (.rooted mode hasRoots) (scale n (asNode factor.exponent)) :=
      canonical_scale_any (Discipline.rooted_hereditary mode hasRoots) n
        (canonical_asNode h.exponent)
    have hlinear : (scale n (asNode factor.exponent)).linear = n • factor.exponent.linear := by
      rw [linear_scale, Nat.cast_smul_eq_nsmul]
      rfl
    obtain ⟨node, hok, hnode⟩ :=
      bears_nsmul hloose himaginary hroot hn (fuel + 1) _ hsum hlinear
    rw [FormalReading.readSlots_pow, hok]
    exact hnode.formsTerm

/-! ## Powers of roots -/

/-- The power of a root of a sum is a product of a sum and a root: if the multiple of the exponent
has an integral and a fractional part, the integral part expands to a sum. -/
def KeepsRoot (mode : Mode) (n : Nat) (factor : Expr) : Prop :=
  let p := factor.degreePower * n
  factor.isRootSum = true → 1 < p → (p.floor : Rat) ≠ p →
    ∃ whole, Arithmetic.pow mode factor.baseOf (.number p.floor) = .ok whole ∧
      whole.isExpandedSum = true

theorem KeepsRoot.withCoeff (h : KeepsRoot mode n factor) (c : Rat) :
    KeepsRoot mode n (factor.withCoeff c) := by
  cases factor with
  | number => exact fun hroot => absurd hroot Bool.false_ne_true
  | _ => exact h

theorem KeepsRoot.isExpandedSum (hmode : mode.numeric = false) (h : KeepsRoot mode n factor)
    (hcanonical : Canonical (.rooted mode hasRoots) factor) (hroot : factor.isRootSum = true)
    (hp : 1 < factor.degreePower * n)
    (hinteger : ((factor.degreePower * n).floor.toNat : Rat) ≠ factor.degreePower * n)
    (hwhole : expansion mode fuel factor.baseOf (factor.degreePower * n).floor.toNat = .ok whole) :
    whole.isExpandedSum = true := by
  have hbase := hcanonical.isRadicand_baseOf hroot
  have hfloor : 1 ≤ (factor.degreePower * n).floor := Rat.le_floor_iff.mpr (by exact_mod_cast hp.le)
  have hcast : ((factor.degreePower * n).floor.toNat : Rat) = (factor.degreePower * n).floor := by
    exact_mod_cast Int.toNat_of_nonneg (by omega : 0 ≤ (factor.degreePower * n).floor)
  obtain ⟨expanded, hpow, hsum⟩ := h hroot hp (hcast ▸ hinteger)
  rw [← hcast, Arithmetic.pow_of_expansion hmode hbase.canonical.proper_of_rooted
    hbase.isExpandedSum (by omega) hwhole] at hpow
  obtain rfl := Except.ok.inj hpow
  exact hsum

/-- A term that is read as a power of a term has the power of its value. -/
theorem results_of_power (h : IsTermPart (rooted mode hasRoots) slots)
    (hforms : FormsTerm (rooted mode hasRoots) outcome
      ((rooted mode hasRoots).readSlots slots ^ n)) :
    (roots mode hasRoots).Results outcome
      ((roots mode hasRoots).value (collapse (.product 1 1 slots)) ^ n) := by
  rw [FormalReading.readSlots, ← map_pow, AddMonoidAlgebra.single_pow, one_pow] at hforms
  rw [h.value_collapse, ← (h.areRooted.readRoots_nsmul n).2]
  exact results_of_formsTerm hforms

theorem exists_yields_raised (fuel : Nat) (hmode : mode.numeric = false)
    (h : Canonical (.rooted mode hasRoots) factor) (hfactor : factor.isFactor = true)
    (hcoeff : factor.coeff = 1) (hkeeps : KeepsRoot mode n factor) (hn : 1 ≤ n) :
    ∃ power, multiplyPowers mode (fuel + 3) factor.exponent (.rational n) = .ok power ∧
      (roots mode hasRoots).Yields (raiseBase mode (fuel + 3) factor.baseOf power)
        ((roots mode hasRoots).value factor ^ n) := by
  cases hroot : factor.isRootSum with
  | true =>
      obtain ⟨hatom, hpos⟩ := isRootSum_iff.mp hroot
      have hpowered := isPowered_of_isAtomSum hatom
      have hloose : IsLoose (rooted mode hasRoots) factor :=
        ⟨h, hfactor, hcoeff, Interpretation.group_ne_radical_of_isPowered hpowered⟩
      refine ⟨.rational (factor.degreePower * n), ?_, ?_⟩
      · rw [exponent_of_isPowered hpowered, multiplyPowers.eq_def]
      · rw [value_root hloose hroot, ← ((areRooted_single _ hpos.le).readRoots_nsmul n).2,
          Finsupp.smul_single, Finsupp.smul_single, nsmul_eq_mul, mul_comm (n : Rat),
          multiplicativeKey_of_isRootSum hroot]
        exact (h.isRadicand_baseOf hroot).yields_raiseBase (multipliesWithin hmode (fuel + 3))
          (mul_pos hpos (by exact_mod_cast hn)) fun hp hinteger _ _ hwhole =>
            hkeeps.isExpandedSum hmode h hroot hp hinteger hwhole
  | false =>
      obtain ⟨power, hpower, hforms⟩ := exists_raised fuel hmode h hfactor hcoeff hroot hn
      have hresults := results_of_power (.singleton h hfactor hcoeff) hforms
      rw [collapse_keyed] at hresults
      exact ⟨power, hpower, hresults.yields⟩

/-! ## Powers of terms -/

theorem Reduce.IsTermPart.keepsRoot (h : IsTermPart (rooted mode hasRoots) slots)
    (hcontent : node.withCoeff 1 = collapse (.product 1 1 slots))
    (hkeeps : ∀ factor ∈ node.factors, KeepsRoot mode n factor) :
    ∀ slot ∈ slots, KeepsRoot mode n slot.2 := by
  intro slot hslot
  match slots with
  | [_] =>
      obtain rfl := List.mem_singleton.mp hslot
      have hfactor := h.part.factor slot hslot
      rw [← h.keyed_snd hslot, collapse_keyed] at hcontent
      have hnode : node.isFactor = true := by rwa [← hcontent, isFactor_withCoeff] at hfactor
      rw [← hcontent]
      refine (hkeeps node ?_).withCoeff 1
      rw [factors_of_isFactor hnode]
      exact List.mem_singleton_self node
  | first :: second :: rest =>
      refine hkeeps slot.2 ?_
      have hproduct : node.factors = Slots.children (first :: second :: rest) := by
        cases node <;> cases hcontent
        rfl
      rw [hproduct]
      exact List.mem_map_of_mem hslot

theorem yields_raiseFactors (fuel : Nat) (hmode : mode.numeric = false)
    (h : IsTermPart (rooted mode hasRoots) slots)
    (hkeeps : ∀ slot ∈ slots, KeepsRoot mode n slot.2) (hn : 1 ≤ n) :
    (roots mode hasRoots).Yields
      (raiseFactors mode (fuel + 4) 1 (Slots.children slots) (.rational n))
      ((roots mode hasRoots).value (collapse (.product 1 1 slots)) ^ n) := by
  have hone : (roots mode hasRoots).value (.number 1) = 1 :=
    ((roots mode hasRoots).value_number 1).trans (map_one _)
  rw [raiseFactors.eq_def, h.value_eq_prod, ← one_mul (_ ^ n), ← hone]
  refine Valuation.yields_foldlM (fun slot hslot total htotal => ?_) (.number 1)
  obtain ⟨power, hpower, hraise⟩ := exists_yields_raised fuel hmode (h.canonical slot hslot)
    (h.part.factor slot hslot) (h.part.coeff slot hslot) (hkeeps slot hslot) hn
  rw [hpower]
  refine hraise.bind fun raised hraised hvalue => ?_
  rw [← hvalue]
  exact multipliesWithin hmode (fuel + 3) total raised htotal hraised

theorem exists_yields_raised_content (fuel : Nat) (hmode : mode.numeric = false)
    (h : IsTermPart (rooted mode hasRoots) slots) (hne : slots ≠ [])
    (hkeeps : ∀ slot ∈ slots, KeepsRoot mode n slot.2) (hn : 1 ≤ n) :
    ∃ power, multiplyPowers mode (fuel + 5) (collapse (.product 1 1 slots)).exponent
        (.rational n) = .ok power ∧
      (roots mode hasRoots).Yields
        (raiseBase mode (fuel + 5) (collapse (.product 1 1 slots)).baseOf power)
        ((roots mode hasRoots).value (collapse (.product 1 1 slots)) ^ n) := by
  rcases slots with _ | ⟨slot, _ | ⟨second, rest⟩⟩
  · exact absurd rfl hne
  · have hmem : slot ∈ [slot] := List.mem_cons_self
    rw [← h.keyed_snd hmem, collapse_keyed]
    exact exists_yields_raised (fuel + 2) hmode (h.canonical slot hmem) (h.part.factor slot hmem)
      (h.part.coeff slot hmem) (hkeeps slot hmem) hn
  · -- a product has exponent one and is its own base
    refine ⟨.rational n, ?_, ?_⟩
    · rw [multiplyPowers.eq_def]
      exact congrArg (fun p => Except.ok (Exponent.rational p)) (one_mul (n : Rat))
    have hzero : (n : Rat) ≠ 0 := Nat.cast_ne_zero.mpr (by omega)
    have hraise : raiseBase mode (fuel + 5) (.product 1 1 (slot :: second :: rest)) (.rational n) =
        if (n : Rat) = 1 then .ok (.product 1 1 (slot :: second :: rest))
        else raiseFactors mode (fuel + 4) 1 (Slots.children (slot :: second :: rest))
          (.rational n) := by
      rw [raiseBase.eq_def]
      simp only [asNode, asExponent, hzero, if_false]
    change (roots mode hasRoots).Yields
      (raiseBase mode (fuel + 5) (.product 1 1 (slot :: second :: rest)) _) _
    rw [hraise]
    split_ifs with hone
    · obtain rfl : n = 1 := by exact_mod_cast hone
      rw [pow_one]
      exact .ok (canonical_collapse_product (Discipline.rooted_hereditary mode hasRoots) one_ne_zero
        h.part h.canonical)
    · exact yields_raiseFactors fuel hmode h hkeeps hn

theorem yields_raiseTo_term (fuel : Nat) (hmode : mode.numeric = false)
    (ha : Canonical (.rooted mode hasRoots) a) (hsum : a.isExpandedSum = false)
    (hnumber : a.isNumber = false) (hkeeps : ∀ factor ∈ a.factors, KeepsRoot mode n factor)
    (hn : 1 ≤ n) : (roots mode hasRoots).Yields (raiseTo mode (fuel + 6) a (.number n))
      ((roots mode hasRoots).value a ^ n) := by
  obtain ⟨slots, hne, hslots, hcontent, -⟩ := ha.exists_content hsum hnumber
  obtain ⟨power, hpower, hraise⟩ := exists_yields_raised_content fuel hmode hslots hne
    (hslots.keepsRoot hcontent hkeeps) hn
  rw [← hcontent, exponent_withCoeff] at hpower
  rw [← hcontent, Interpretation.baseOf_withCoeff hnumber] at hraise
  have hzero : (n : Rat) ≠ 0 := Nat.cast_ne_zero.mpr (by omega)
  have hstep : raiseTo mode (fuel + 6) a (.number n) =
      raiseBase mode (fuel + 5) a.baseOf power >>= fun raised =>
        if a.coeff = 1 then .ok raised
        else combineFactors mode (fuel + 5) (.number (a.coeff ^ n)) raised := by
    rw [raiseTo.eq_def]
    cases a <;> simp only [isNumber, Bool.true_eq_false] at hnumber <;>
      simp only [hzero, if_false, hpower, bind, Except.bind,
        numberPower_natCast mode (fuel + 4) (show n ≠ 0 by omega)] <;> rfl
  rw [hstep, (roots mode hasRoots).value_eq_smul ha, smul_pow]
  refine hraise.bind fun raised hraised hvalue => ?_
  rw [← hvalue]
  split_ifs with hone
  · rw [hone, one_pow, one_smul]
    exact .ok hraised
  · rw [(combineFactors_number mode (fuel + 4) _ raised).2]
    exact (Valuation.Yields.ok hraised).map_scale _

/-! ## Operations -/

theorem yields_raiseTo (fuel : Nat) (hmode : mode.numeric = false)
    (ha : Canonical (.rooted mode hasRoots) a)
    (hkeeps : ∀ factor ∈ a.factors, KeepsRoot mode n factor) (hn : 1 ≤ n) :
    (roots mode hasRoots).Yields (raiseTo mode (fuel + 6) a (.number n))
      ((roots mode hasRoots).value a ^ n) := by
  cases hsum : a.isExpandedSum with
  | true =>
      rw [raiseTo_plain (isPlain_of_isExpandedSum ha hsum) (Nat.cast_ne_zero.mpr (by omega)),
        raiseBase_natCast hsum hn]
      exact Valuation.yields_expansion (multipliesWithin hmode (fuel + 4)) ha hsum hn
  | false =>
      cases hnumber : a.isNumber with
      | false => exact yields_raiseTo_term fuel hmode ha hsum hnumber hkeeps hn
      | true =>
          obtain ⟨v, rfl⟩ := exists_eq_number hnumber
          have hpower : raiseTo mode (fuel + 6) (.number v) (.number n) =
              .ok (.number (v ^ n)) := by
            rw [raiseTo.eq_def]
            exact numberPower_natCast mode (fuel + 4) (by omega) v
          rw [hpower, Valuation.value_number, ← map_pow, ← Valuation.value_number]
          exact .ok (.number _)

namespace Arithmetic

/-- A natural power is read as the power. -/
theorem results_pow_rooted (hmode : mode.numeric = false)
    (ha : Canonical (.rooted mode hasRoots) a)
    (hkeeps : ∀ factor ∈ a.factors, KeepsRoot mode n factor) (hn : 1 ≤ n) :
    (roots mode hasRoots).Results (pow mode a (.number n))
      ((roots mode hasRoots).value a ^ n) := by
  have hdefined : ¬ IsUndefined a (.number n) := by
    rintro ⟨p, -, hp, hle⟩
    obtain rfl := Expr.number.inj hp
    exact absurd hle (not_le.mpr (by exact_mod_cast hn))
  obtain ⟨node, hok, -, hlate⟩ :=
    exists_pow_late hmode ha.proper_of_rooted (.number (n : Rat)) hdefined
  obtain ⟨depth, hdepth⟩ := ((Filter.tendsto_add_atTop_nat 6).eventually hlate).exists
  obtain ⟨hnode, hvalue⟩ := yields_raiseTo depth hmode ha hkeeps hn node hdepth
  exact ⟨node, hok, hnode, hvalue⟩

end Arithmetic

end ExactAlgebra
