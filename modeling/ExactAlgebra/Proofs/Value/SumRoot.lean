import ExactAlgebra.Proofs.Number.Nested
import ExactAlgebra.Proofs.Value.SteadyFactor

/-!
# Roots of sums

The roots of a sum stand in the slot of the sum.  Their exponents add up, and an integral part is
a power of the sum itself: formal sums are read up to the value of these powers.  There may be roots
of other sums in the sum, but these are smaller, so the reading tells expressions with roots of sums
apart.
-/

namespace ExactAlgebra

open ExactAlgebra.Expr Reduce
open FormalReading (rooted)

variable {mode : Mode} {hasRoots : Key → Prop} {sum factor term node a b : Expr} {key : Key}
  {p : Rat}

/-! ## Sizes of identities -/

/-- The number of constructors in a key. -/
def Key.size : Key → Nat
  | .cons head tail => head.size + tail.size + 1
  | .set members => members.size + 1
  | _ => 1

theorem Key.size_lt_setOf {keys : List Key} (h : key ∈ keys) :
    key.size < (Key.setOf keys).size := by
  have htuple : ∀ {list : List Key}, key ∈ list → key.size < (Key.tuple list).size := by
    intro list hkey
    induction list with
    | nil => cases hkey
    | cons first rest ih =>
        rw [Key.tuple, Key.size]
        rcases List.mem_cons.mp hkey with rfl | hrest
        · omega
        · have := ih hrest
          omega
  exact (htuple (Key.mem_ascending.mpr h)).trans (Nat.lt_succ_self _)

namespace Expr

/-- The children of a sum or product have smaller identities. -/
theorem size_signature_lt {slot : Key × Expr} (h : slot ∈ node.slots) :
    slot.2.signature.size < node.signature.size := by
  have hset : ∀ {slots : Slots}, slot ∈ slots →
      slot.2.signature.size < (Key.setOf (slotsSignatures slots)).size := by
    intro slots hslot
    rw [Slots.slotsSignatures_eq]
    exact Key.size_lt_setOf (List.mem_map_of_mem hslot)
  cases node <;> simp only [slots, List.not_mem_nil] at h
  all_goals
    have hslots := hset h
    simp only [signature, content, Key.tuple, Key.size] at hslots ⊢
    omega

theorem size_signature_of_mem_terms (h : term ∈ node.terms) :
    term.signature.size ≤ node.signature.size := by
  induction node using slots_induction with
  | step node ih =>
      cases hsum : node.isExpandedSum with
      | false =>
          rw [terms_of_not_isExpandedSum hsum, List.mem_singleton] at h
          rw [h]
      | true =>
          rw [terms_of_isExpandedSum hsum] at h
          obtain ⟨slot, hslot, hterm⟩ := List.mem_flatMap.mp h
          exact (ih slot hslot hterm).trans (size_signature_lt hslot).le

theorem size_signature_of_mem_factors (h : factor ∈ term.factors) :
    factor.signature.size ≤ term.signature.size := by
  cases term with
  | number => cases h
  | product =>
      obtain ⟨slot, hslot, rfl⟩ := List.mem_map.mp h
      exact (size_signature_lt hslot).le
  | _ =>
      rw [List.mem_singleton.mp h]

theorem size_signature_baseOf (h : factor.isAtomSum = true) :
    factor.baseOf.signature.size = factor.signature.size := by
  cases factor <;> first | cases h | simp [baseOf, withCoeff, withPower, signature, content,
    Key.tuple, Key.size]

end Expr

/-! ## Radicands -/

/-- A sum that has roots. -/
structure IsRadicand (mode : Mode) (hasRoots : Key → Prop) (sum : Expr) : Prop where
  canonical : Canonical (.rooted mode hasRoots) sum
  isExpandedSum : sum.isExpandedSum = true
  hasRoots : hasRoots (Slots.termsKey sum.slots)

theorem Canonical.isRadicand_baseOf (h : Canonical (.rooted mode hasRoots) factor)
    (hroot : factor.isRootSum = true) : IsRadicand mode hasRoots factor.baseOf := by
  have hroots := h.hasRoots_termsKey hroot
  have hsum := (isRootSum_iff.mp hroot).1
  rw [← slots_baseOf hsum] at hroots
  refine ⟨?_, isExpandedSum_baseOf hsum, hroots⟩
  cases h with
  | polynomial _ _ hslots hterms => exact .expandedPolynomial hslots hterms
  | composite _ _ hslots hterms => exact .expandedComposite hslots hterms
  | _ => cases hsum

namespace IsRadicand

variable (h : IsRadicand mode hasRoots sum)
include h

theorem signature : sum.signature = .cons (.rational 1) sum.content := by
  rw [Expr.signature, h.canonical.coeff_of_isExpandedSum h.isExpandedSum]

theorem isLoose_withPower (hp : 0 < p) (hlt : p < 1) :
    IsLoose (rooted mode hasRoots) (sum.withPower p) := by
  have hpowered := isPowered_withPower h.isExpandedSum hlt.ne
  have hcoeff := h.canonical.coeff_of_isExpandedSum h.isExpandedSum
  have hshape : IsSum sum.coeff p := .inr ⟨hcoeff ▸ one_ne_zero, .inr ⟨hp, hlt⟩⟩
  refine ⟨?_, isFactor_of_isPowered hpowered, ?_,
    Interpretation.group_ne_radical_of_isPowered hpowered⟩
  · obtain ⟨hcanonical, hsum, hroots⟩ := h
    cases hcanonical with
    | polynomial _ _ hslots hterms => exact .polynomial hshape (fun _ _ => hroots) hslots hterms
    | composite _ _ hslots hterms => exact .composite hshape (fun _ _ => hroots) hslots hterms
    | _ => cases hsum
  · rw [← hcoeff]
    cases sum <;> rfl

theorem isRootSum_withPower (hp : 0 < p) (hlt : p < 1) : (sum.withPower p).isRootSum = true := by
  have hpower := degreePower_withPower h.isExpandedSum p
  have hsum : (sum.withPower p).isSum = true := by
    rw [isSum_withPower, (isExpandedSum_iff.mp h.isExpandedSum).1]
  exact isRootSum_iff.mpr ⟨isAtomSum_of_ne hsum (by rw [hpower]; exact hlt.ne), by rwa [hpower]⟩

theorem multiplicativeKey_withPower (hp : 0 < p) :
    (sum.withPower p).multiplicativeKey = sum.signature := by
  rw [multiplicativeKey, if_neg, baseKey_withPower h.isExpandedSum, h.signature]
  rw [degreePower_withPower h.isExpandedSum]
  simpa using fun _ => hp.le

end IsRadicand

/-- A root of a variable plus a constant. -/
theorem Canonical.root_of_binomial {name : String} {value : Rat} (hvalue : value ≠ 0)
    (hp : 0 < p ∧ p < 1) (hroots : hasRoots (Slots.termsKey
      [((Expr.named name).additiveKey, .named name), (constantMark, .number value)])) :
    Canonical (.rooted mode hasRoots) (.composite 1 p
      [((Expr.named name).additiveKey, .named name), (constantMark, .number value)]) := by
  have hradicand : IsRadicand mode hasRoots _ := ⟨.binomial (fun _ => rfl) hvalue, rfl, hroots⟩
  exact (hradicand.isLoose_withPower hp.1 hp.2).canonical

/-- The slot of the roots of a sum. -/
def IsRootSlot (mode : Mode) (hasRoots : Key → Prop) (key : Key) : Prop :=
  ∃ sum, IsRadicand mode hasRoots sum ∧ sum.signature = key

/-- A slot of roots, by one of them. -/
theorem IsRootSlot.exists_root (h : IsRootSlot mode hasRoots key) :
    ∃ root, IsLoose (rooted mode hasRoots) root ∧ root.isRootSum = true ∧
      root.multiplicativeKey = key := by
  obtain ⟨sum, hsum, rfl⟩ := h
  exact ⟨sum.withPower (1 / 2), hsum.isLoose_withPower (by norm_num) (by norm_num),
    hsum.isRootSum_withPower (by norm_num) (by norm_num),
    hsum.multiplicativeKey_withPower (by norm_num)⟩

theorem IsRootSlot.surdOf? (h : IsRootSlot mode hasRoots key) : surdOf? mode key = none := by
  obtain ⟨root, hroot, hsum, rfl⟩ := h.exists_root
  refine surdOf?_of_isFactor hroot.isFactor hroot.group fun hkey => ?_
  obtain ⟨c, rfl⟩ := hroot.canonical.exists_eq_imaginary hroot.isFactor hkey
  cases hsum

/-- Roots, and nothing else, stand in the slots of roots. -/
theorem Canonical.isRootSlot_iff (h : Canonical (.rooted mode hasRoots) factor)
    (hfactor : factor.isFactor = true) :
    IsRootSlot mode hasRoots factor.multiplicativeKey ↔ factor.isRootSum = true := by
  constructor
  · intro hslot
    obtain ⟨root, hroot, hsum, hkey⟩ := hslot.exists_root
    have hone : (factor.withCoeff 1).multiplicativeKey = factor.multiplicativeKey :=
      multiplicativeKey_withCoeff (isFactor_iff.mp hfactor).1
    have hloose : IsLoose (rooted mode hasRoots) (factor.withCoeff 1) :=
      hroot.of_multiplicativeKey h.withCoeff_one (by rwa [isFactor_withCoeff])
        (coeff_withCoeff _ _) (by rw [hone, hkey])
    have := isRootSum_of_key hroot hloose (by rw [hone, hkey]) hsum
    cases factor <;> exact this
  · intro hroot
    exact ⟨factor.baseOf, h.isRadicand_baseOf hroot, (multiplicativeKey_of_isRootSum hroot).symm⟩

/-! ## Exponents of roots -/

noncomputable instance (mode : Mode) (hasRoots : Key → Prop) :
    DecidablePred (IsRootSlot mode hasRoots) := fun _ => Classical.dec _

section

variable (mode hasRoots)

/-- The exponents of the roots of sums. -/
noncomputable def rootPowers (e : Key →₀ Key →₀ Rat) : Key →₀ ℚ≥0 :=
  (e.filter (IsRootSlot mode hasRoots)).mapRange (fun f : Key →₀ Rat => (f constantMark).toNNRat)
    (by rw [Finsupp.zero_apply, Rat.toNNRat_zero])

/-- The exponents of everything but the roots of sums. -/
noncomputable def otherPowers : (Key →₀ Key →₀ Rat) →+ (Key →₀ Key →₀ Rat) :=
  Finsupp.filterAddHom fun key => ¬ IsRootSlot mode hasRoots key

/-- The exponents of roots in the slots of roots. -/
noncomputable def ofRootPowers (v : Key →₀ ℚ≥0) : Key →₀ Key →₀ Rat :=
  v.mapRange (fun q : ℚ≥0 => Finsupp.single constantMark (q : Rat))
    (by rw [NNRat.coe_zero, Finsupp.single_zero])

/-- In the slots of roots there are rational exponents, which are not negative. -/
def AreRooted (e : Key →₀ Key →₀ Rat) : Prop :=
  ∀ key, IsRootSlot mode hasRoots key → ∃ q : ℚ≥0, e key = .single constantMark (q : Rat)

end

section

variable {e e' : Key →₀ Key →₀ Rat}

theorem rootPowers_apply (h : IsRootSlot mode hasRoots key) (e : Key →₀ Key →₀ Rat) :
    rootPowers mode hasRoots e key = (e key constantMark).toNNRat :=
  congrArg (fun f : Key →₀ Rat => (f constantMark).toNNRat) (Finsupp.filter_apply_pos _ e h)

theorem rootPowers_apply_of_not (h : ¬ IsRootSlot mode hasRoots key) (e : Key →₀ Key →₀ Rat) :
    rootPowers mode hasRoots e key = 0 :=
  (congrArg (fun f : Key →₀ Rat => (f constantMark).toNNRat)
    (Finsupp.filter_apply_neg _ e h)).trans Rat.toNNRat_zero

theorem otherPowers_apply (h : ¬ IsRootSlot mode hasRoots key) (e : Key →₀ Key →₀ Rat) :
    otherPowers mode hasRoots e key = e key := Finsupp.filter_apply_pos _ e h

theorem otherPowers_apply_of_isRootSlot (h : IsRootSlot mode hasRoots key)
    (e : Key →₀ Key →₀ Rat) : otherPowers mode hasRoots e key = 0 :=
  Finsupp.filter_apply_neg _ e (not_not.mpr h)

theorem AreRooted.rootPowers_add (h : AreRooted mode hasRoots e)
    (h' : AreRooted mode hasRoots e') : rootPowers mode hasRoots (e + e') =
      rootPowers mode hasRoots e + rootPowers mode hasRoots e' := by
  ext1 key
  by_cases hkey : IsRootSlot mode hasRoots key
  · obtain ⟨q, hq⟩ := h key hkey
    obtain ⟨q', hq'⟩ := h' key hkey
    rw [Finsupp.add_apply, rootPowers_apply hkey, rootPowers_apply hkey, rootPowers_apply hkey,
      Finsupp.add_apply, Finsupp.add_apply, hq, hq', Finsupp.single_eq_same,
      Finsupp.single_eq_same, Rat.toNNRat_add q.coe_nonneg q'.coe_nonneg]
  · rw [Finsupp.add_apply, rootPowers_apply_of_not hkey, rootPowers_apply_of_not hkey,
      rootPowers_apply_of_not hkey, add_zero]

theorem AreRooted.add (h : AreRooted mode hasRoots e) (h' : AreRooted mode hasRoots e') :
    AreRooted mode hasRoots (e + e') := by
  intro key hkey
  obtain ⟨q, hq⟩ := h key hkey
  obtain ⟨q', hq'⟩ := h' key hkey
  exact ⟨q + q', by rw [Finsupp.add_apply, hq, hq', ← Finsupp.single_add, NNRat.coe_add]⟩

theorem AreRooted.otherPowers_add (h : AreRooted mode hasRoots e) :
    otherPowers mode hasRoots e + ofRootPowers (rootPowers mode hasRoots e) = e := by
  ext1 key
  rw [Finsupp.add_apply, ofRootPowers, Finsupp.mapRange_apply]
  by_cases hkey : IsRootSlot mode hasRoots key
  · obtain ⟨q, hq⟩ := h key hkey
    rw [otherPowers_apply_of_isRootSlot hkey, zero_add, rootPowers_apply hkey, hq,
      Finsupp.single_eq_same, Rat.coe_toNNRat _ q.coe_nonneg]
  · rw [otherPowers_apply hkey, rootPowers_apply_of_not hkey, NNRat.coe_zero, Finsupp.single_zero,
      add_zero]

theorem rootPowers_splitSurds (e : Key →₀ Key →₀ Rat) :
    rootPowers mode hasRoots (splitSurds mode e).1 = rootPowers mode hasRoots e := by
  ext1 key
  by_cases hkey : IsRootSlot mode hasRoots key
  · rw [rootPowers_apply hkey, rootPowers_apply hkey, splitSurds_fst hkey.surdOf?]
  · rw [rootPowers_apply_of_not hkey, rootPowers_apply_of_not hkey]

theorem otherPowers_single (key : Key) (f : Key →₀ Rat) :
    otherPowers mode hasRoots (.single key f) =
      if IsRootSlot mode hasRoots key then 0 else .single key f := by
  split_ifs with hkey
  · exact Finsupp.filter_single_of_neg _ (not_not.mpr hkey)
  · exact Finsupp.filter_single_of_pos _ hkey

theorem splitSurds_otherPowers (e : Key →₀ Key →₀ Rat) :
    splitSurds mode (otherPowers mode hasRoots e) =
      (otherPowers mode hasRoots (splitSurds mode e).1, (splitSurds mode e).2) := by
  induction e using Finsupp.induction_linear with
  | zero => rw [map_zero, map_zero, Prod.fst_zero, map_zero, Prod.snd_zero, Prod.mk_zero_zero]
  | add e e' he he' => simp only [map_add, he, he', Prod.mk_add_mk, Prod.fst_add, Prod.snd_add]
  | single key f =>
      rw [otherPowers_single, splitSurds_single]
      split_ifs with hkey
      · rw [splitKey_of_none hkey.surdOf?, otherPowers_single, if_pos hkey, map_zero]
        rfl
      · rw [splitSurds_single]
        cases hsurd : surdOf? mode key with
        | none => rw [splitKey_of_none hsurd, otherPowers_single, if_neg hkey]
        | some surd => rw [splitKey_of_surdOf hsurd, map_zero]

end

/-! ## The roots apart -/

/-- Values of everything but the roots of sums. -/
abbrev RootFreeValues := Surd.Values (Key →₀ Key →₀ Rat)

section

variable (mode hasRoots)

/-- The roots of sums apart from the values of the other factors. -/
noncomputable def spreadSums :
    Surd.Sums (Key →₀ Key →₀ Rat) →ₗ[Rat] AddMonoidAlgebra RootFreeValues (Key →₀ ℚ≥0) where
  toFun x := Finsupp.linearCombination Rat
    (fun m => (.single (rootPowers mode hasRoots m.1)
      (Surd.value (.single (otherPowers mode hasRoots m.1, m.2) 1)) :
        AddMonoidAlgebra RootFreeValues (Key →₀ ℚ≥0))) x.coeff
  map_add' x y := by simp
  map_smul' c x := by simp

/-- The roots of sums in a formal sum apart from the values of the other factors. -/
noncomputable def spread : FormalSum →ₗ[Rat] AddMonoidAlgebra RootFreeValues (Key →₀ ℚ≥0) where
  toFun x := spreadSums mode hasRoots (x.mapDomain (splitSurds mode))
  map_add' x y := by rw [AddMonoidAlgebra.mapDomain_add, map_add]
  map_smul' c x := (congrArg _ (map_smul (AddMonoidAlgebra.mapDomainAlgHom Rat Rat _) c x)).trans
    (map_smul _ c _)

end

theorem spreadSums_single (m : (Key →₀ Key →₀ Rat) × (Nat →₀ Rat)) (c : Rat) :
    spreadSums mode hasRoots (.single m c) = .single (rootPowers mode hasRoots m.1)
      (Surd.value (.single (otherPowers mode hasRoots m.1, m.2) c)) := by
  rw [← mul_one c, ← smul_eq_mul, ← AddMonoidAlgebra.smul_single, map_smul,
    ← AddMonoidAlgebra.smul_single, map_smul, ← AddMonoidAlgebra.smul_single]
  simp [spreadSums]

theorem spread_single (e : Key →₀ Key →₀ Rat) (c : Rat) :
    spread mode hasRoots (.single e c) = .single (rootPowers mode hasRoots e)
      ((rooted mode hasRoots).read (.single (otherPowers mode hasRoots e) c)) := by
  change spreadSums mode hasRoots (AddMonoidAlgebra.mapDomain _ _) = _
  rw [AddMonoidAlgebra.mapDomain_single, spreadSums_single, rootPowers_splitSurds, read_single,
    splitSurds_otherPowers]

/-- Formal sums that are read alike have the same roots. -/
theorem spread_congr {x y : FormalSum}
    (h : (rooted mode hasRoots).read x = (rooted mode hasRoots).read y) :
    spread mode hasRoots x = spread mode hasRoots y := by
  have hreduce : ∀ z, spreadSums mode hasRoots ((Surd.carry _).reduce z) =
      spreadSums mode hasRoots z := by
    intro z
    refine linearMap_congr (f := spreadSums mode hasRoots ∘ₗ (Surd.carry _).reduce)
      (g := spreadSums mode hasRoots) fun m _ => ?_
    generalize z.coeff m = c
    change spreadSums mode hasRoots ((Surd.carry _).reduce _) = _
    rw [Surd.reduce_single, spreadSums_single, spreadSums_single]
    exact congrArg _ (Surd.value_rest (otherPowers mode hasRoots m.1, m.2) c)
  have hsame := (Surd.carry _).value_eq_iff.mp h
  exact (hreduce _).symm.trans ((congrArg _ hsame).trans (hreduce _))

section

variable (mode hasRoots)

/-- The roots of sums back with the other factors. -/
noncomputable def gather :
    AddMonoidAlgebra RootFreeValues (Key →₀ ℚ≥0) →ₗ[RootFreeValues] RootFreeValues where
  toFun x := Finsupp.linearCombination RootFreeValues
    (fun v => (rooted mode hasRoots).read (.single (ofRootPowers v) 1)) x.coeff
  map_add' x y := by simp
  map_smul' c x := by simp

end

theorem gather_single (v : Key →₀ ℚ≥0) (r : RootFreeValues) :
    gather mode hasRoots (.single v r) =
      r * (rooted mode hasRoots).read (.single (ofRootPowers v) 1) := by
  simp [gather]

theorem AreRooted.gather_spread {e : Key →₀ Key →₀ Rat} (h : AreRooted mode hasRoots e) (c : Rat) :
    gather mode hasRoots (spread mode hasRoots (.single e c)) =
      (rooted mode hasRoots).read (.single e c) := by
  rw [spread_single, gather_single, ← map_mul, AddMonoidAlgebra.single_mul_single,
    h.otherPowers_add, mul_one]

/-! ## Roots in terms -/

theorem Canonical.degreePower_lt_one (h : Canonical (.rooted mode hasRoots) factor)
    (hroot : factor.isRootSum = true) : factor.degreePower < 1 := by
  obtain ⟨hsum, hpos⟩ := isRootSum_iff.mp hroot
  have hpower : factor.degreePower ≠ 1 := by simpa using (Bool.and_eq_true_iff.mp hsum).2
  have hshape : ∀ {coeff power : Rat}, IsSum coeff power → power ≠ 1 → 0 < power → power < 1 := by
    rintro coeff power (⟨-, hone⟩ | ⟨-, hneg | ⟨-, hlt⟩⟩) hne hpos
    · exact absurd hone hne
    · exact absurd hpos hneg.not_gt
    · exact hlt
  cases h with
  | polynomial h | composite h => exact hshape h hpower hpos
  | _ => cases hsum

theorem Canonical.exists_exponents_eq (h : Canonical (.rooted mode hasRoots) term)
    (hsum : term.isExpandedSum = false) (hkey : IsRootSlot mode hasRoots key) :
    ∃ q : ℚ≥0, q < 1 ∧ term.exponents key = .single constantMark (q : Rat) := by
  by_cases hsome : ∃ factor ∈ term.factors, factor.multiplicativeKey = key
  · obtain ⟨factor, hfactor, rfl⟩ := hsome
    obtain ⟨hcanonical, hfactorial⟩ := h.factors hsum factor hfactor
    have hroot := (hcanonical.isRootSlot_iff hfactorial).mp hkey
    obtain ⟨hatom, hpos⟩ := isRootSum_iff.mp hroot
    refine ⟨⟨factor.degreePower, hpos.le⟩, hcanonical.degreePower_lt_one hroot, ?_⟩
    rw [exponents, exponentsOf_of_mem h.nodup_keys hfactor,
      linear_exponent_of_isPowered (isPowered_of_isAtomSum hatom)]
    rfl
  · push Not at hsome
    refine ⟨0, zero_lt_one, ?_⟩
    rw [exponents, exponentsOf_of_not_mem hsome, NNRat.coe_zero, Finsupp.single_zero]

theorem Canonical.areRooted (h : Canonical (.rooted mode hasRoots) term)
    (hsum : term.isExpandedSum = false) : AreRooted mode hasRoots term.exponents := by
  intro key hkey
  obtain ⟨q, -, hq⟩ := h.exists_exponents_eq hsum hkey
  exact ⟨q, hq⟩

theorem Canonical.rootPowers_lt_one (h : Canonical (.rooted mode hasRoots) term)
    (hsum : term.isExpandedSum = false) (key : Key) :
    rootPowers mode hasRoots term.exponents key < 1 := by
  by_cases hkey : IsRootSlot mode hasRoots key
  · obtain ⟨q, hlt, hq⟩ := h.exists_exponents_eq hsum hkey
    rwa [rootPowers_apply hkey, hq, Finsupp.single_eq_same, NNRat.toNNRat_coe]
  · rw [rootPowers_apply_of_not hkey]
    exact zero_lt_one

theorem Canonical.gather_spread (h : Canonical (.rooted mode hasRoots) node) :
    gather mode hasRoots (spread mode hasRoots node.formal) =
      (rooted mode hasRoots).read node.formal := by
  refine linearMap_congr (S := Rat) (f := (gather mode hasRoots).restrictScalars Rat ∘ₗ
    spread mode hasRoots) (g := (rooted mode hasRoots).read.toLinearMap) fun e he => ?_
  obtain ⟨term, -, hterm, hsum, rfl⟩ := h.exists_term he
  exact (hterm.areRooted hsum).gather_spread _

theorem Canonical.spread_mem_reduced (h : Canonical (.rooted mode hasRoots) node) :
    spread mode hasRoots node.formal ∈ Nested.reduced RootFreeValues Key := by
  refine linearMap_mem (spread mode hasRoots) fun e he => ?_
  obtain ⟨term, -, hterm, hsum, rfl⟩ := h.exists_term he
  rw [spread_single]
  exact Finsupp.single_mem_supported RootFreeValues _ (hterm.rootPowers_lt_one hsum)

/-- In a sum there are roots of smaller sums only. -/
theorem IsRadicand.spread_mem_avoiding (h : IsRadicand mode hasRoots sum)
    (hsize : sum.signature.size ≤ key.size) :
    spread mode hasRoots sum.formal ∈ Nested.avoiding RootFreeValues key := by
  refine linearMap_mem (spread mode hasRoots) fun e he => ?_
  obtain ⟨term, hmem, hterm, hsum, rfl⟩ := h.canonical.exists_term he
  rw [spread_single]
  refine Finsupp.single_mem_supported RootFreeValues _ ?_
  by_cases hkey : IsRootSlot mode hasRoots key
  · have hnone : ∀ factor ∈ term.factors, factor.multiplicativeKey ≠ key := by
      rintro factor hfactor rfl
      obtain ⟨hcanonical, hfactorial⟩ := hterm.factors hsum factor hfactor
      have hroot := (hcanonical.isRootSlot_iff hfactorial).mp hkey
      rw [multiplicativeKey_of_isRootSum hroot, size_signature_baseOf (isRootSum_iff.mp hroot).1]
        at hsize
      rw [terms_of_isExpandedSum h.isExpandedSum] at hmem
      obtain ⟨slot, hslot, hmem⟩ := List.mem_flatMap.mp hmem
      have hchild := size_signature_lt hslot
      have hpart := size_signature_of_mem_terms hmem
      have hwhole := size_signature_of_mem_factors hfactor
      omega
    change rootPowers mode hasRoots term.exponents key = 0
    rw [rootPowers_apply hkey, exponents, exponentsOf_of_not_mem hnone, Finsupp.zero_apply,
      Rat.toNNRat_zero]
  · exact rootPowers_apply_of_not hkey _

/-! ## Values -/

section

variable (mode hasRoots)

open Classical in
/-- The value of the sum of which the roots stand in a slot. -/
noncomputable def radicandValue (key : Key) : Nested.Sums RootFreeValues Key :=
  if h : IsRootSlot mode hasRoots key then spread mode hasRoots h.choose.formal else 0

/-- Values of formal sums in which the integral powers of roots are those of the sums. -/
abbrev RootValues := Nested.Values (radicandValue mode hasRoots)

/-- What formal sums with roots of sums are read as. -/
noncomputable def readRoots : FormalSum →ₗ[Rat] RootValues mode hasRoots where
  toFun x := Nested.value (radicandValue mode hasRoots) (spread mode hasRoots x)
  map_add' x y := by rw [map_add, map_add]
  map_smul' c x := by
    rw [map_smul]
    exact ((Nested.value _).toLinearMap.restrictScalars Rat).map_smul c _

end

theorem radicandValue_eq (h : IsRadicand mode hasRoots sum) :
    radicandValue mode hasRoots sum.signature = spread mode hasRoots sum.formal := by
  have hslot : IsRootSlot mode hasRoots sum.signature := ⟨sum, h, rfl⟩
  obtain ⟨hchosen, hsignature⟩ := hslot.choose_spec
  rw [radicandValue, dif_pos hslot]
  exact congrArg _ ((hchosen.canonical.proper_of_rooted.equals_iff_formal
    h.canonical.proper_of_rooted).mp (beq_iff_eq.mpr hsignature))

theorem descends_radicandValue (mode : Mode) (hasRoots : Key → Prop) :
    Nested.Descends (radicandValue mode hasRoots) Key.size := by
  intro key key' hsize
  by_cases hslot : IsRootSlot mode hasRoots key
  · obtain ⟨sum, hsum, rfl⟩ := hslot
    rw [radicandValue_eq hsum]
    exact hsum.spread_mem_avoiding hsize
  · rw [radicandValue, dif_neg hslot]
    exact Submodule.zero_mem _

theorem readRoots_apply (x : FormalSum) : readRoots mode hasRoots x =
    Nested.value (radicandValue mode hasRoots) (spread mode hasRoots x) := rfl

theorem readRoots_congr {x y : FormalSum}
    (h : (rooted mode hasRoots).read x = (rooted mode hasRoots).read y) :
    readRoots mode hasRoots x = readRoots mode hasRoots y := by
  rw [readRoots_apply, spread_congr h, readRoots_apply]

theorem readRoots_single (e : Key →₀ Key →₀ Rat) (c : Rat) : readRoots mode hasRoots (.single e c) =
    Nested.value (radicandValue mode hasRoots) (.single (rootPowers mode hasRoots e)
      ((rooted mode hasRoots).read (.single (otherPowers mode hasRoots e) c))) := by
  rw [readRoots_apply, spread_single]

theorem AreRooted.readRoots_add {e e' : Key →₀ Key →₀ Rat} (h : AreRooted mode hasRoots e)
    (h' : AreRooted mode hasRoots e') (c c' : Rat) :
    readRoots mode hasRoots (.single (e + e') (c * c')) =
      readRoots mode hasRoots (.single e c) * readRoots mode hasRoots (.single e' c') := by
  rw [readRoots_single, readRoots_single, readRoots_single, ← map_mul,
    AddMonoidAlgebra.single_mul_single, h.rootPowers_add h', map_add, ← map_mul,
    AddMonoidAlgebra.single_mul_single]

theorem readRoots_one : readRoots mode hasRoots 1 = 1 := by
  have hpowers : rootPowers mode hasRoots 0 = 0 := by
    rw [rootPowers, Finsupp.filter_zero, Finsupp.mapRange_zero]
  rw [AddMonoidAlgebra.one_def, readRoots_single, map_zero, hpowers, ← AddMonoidAlgebra.one_def,
    map_one, ← AddMonoidAlgebra.one_def, map_one]

theorem AreRooted.readRoots_nsmul {e : Key →₀ Key →₀ Rat} (h : AreRooted mode hasRoots e)
    (n : Nat) : AreRooted mode hasRoots (n • e) ∧
      readRoots mode hasRoots (.single (n • e) 1) = readRoots mode hasRoots (.single e 1) ^ n := by
  induction n with
  | zero =>
      have hone : readRoots mode hasRoots (.single 0 1) = 1 := readRoots_one
      rw [zero_smul, pow_zero, hone]
      exact ⟨fun key _ => ⟨0, by rw [Finsupp.zero_apply, NNRat.coe_zero, Finsupp.single_zero]⟩, rfl⟩
  | succ n ih =>
      obtain ⟨hpower, hvalue⟩ := ih
      rw [succ_nsmul, pow_succ, ← hvalue, ← hpower.readRoots_add h, mul_one]
      exact ⟨hpower.add h, rfl⟩

/-- The first power in the slot of roots is the sum. -/
theorem IsRadicand.readRoots_formal (h : IsRadicand mode hasRoots sum) :
    readRoots mode hasRoots sum.formal =
      readRoots mode hasRoots (.single (.single sum.signature (.single constantMark 1)) 1) := by
  have hslot : IsRootSlot mode hasRoots sum.signature := ⟨sum, h, rfl⟩
  have hpowers : rootPowers mode hasRoots (.single sum.signature (.single constantMark 1)) =
      .single sum.signature 1 := by
    ext1 key
    by_cases hkey : IsRootSlot mode hasRoots key
    · rw [rootPowers_apply hkey]
      by_cases heq : key = sum.signature
      · rw [heq, Finsupp.single_eq_same, Finsupp.single_eq_same, Finsupp.single_eq_same,
          Rat.toNNRat_one]
      · rw [Finsupp.single_eq_of_ne heq, Finsupp.single_eq_of_ne heq, Finsupp.zero_apply,
          Rat.toNNRat_zero]
    · rw [rootPowers_apply_of_not hkey, Finsupp.single_eq_of_ne]
      exact fun heq => hkey (heq ▸ hslot)
  rw [readRoots_single, otherPowers_single, if_pos hslot, hpowers, ← AddMonoidAlgebra.one_def,
    map_one, Nested.value_single, radicandValue_eq h, readRoots_apply]

/-- Expressions are equal if and only if they are read alike. -/
theorem Canonical.equals_iff_readRoots (ha : Canonical (.rooted mode hasRoots) a)
    (hb : Canonical (.rooted mode hasRoots) b) : a.equals b = true ↔
      readRoots mode hasRoots a.formal = readRoots mode hasRoots b.formal := by
  refine ⟨fun h => congrArg _ ((ha.proper_of_rooted.equals_iff_formal hb.proper_of_rooted).mp h),
    fun h => ?_⟩
  have hsame := Nested.eq_of_value_eq (descends_radicandValue mode hasRoots) ha.spread_mem_reduced
    hb.spread_mem_reduced h
  rw [ha.equals_iff_read hb, ← ha.gather_spread, ← hb.gather_spread, hsame]

theorem linearCombination_readRoots (f : Key →₀ Rat) :
    Finsupp.linearCombination Rat
        (fun c => readRoots mode hasRoots (.single (exponentsOfContent c) 1)) f =
      readRoots mode hasRoots (formalSum f) :=
  (Finsupp.apply_linearCombination Rat (readRoots mode hasRoots) _ f).symm

/-- The valuation of expressions with roots of sums. -/
noncomputable def Valuation.roots (mode : Mode) (hasRoots : Key → Prop) :
    Valuation (RootValues mode hasRoots) where
  rules := .rooted mode hasRoots
  hereditary := Discipline.rooted_hereditary mode hasRoots
  weight := Finsupp.linearCombination Rat fun c =>
    readRoots mode hasRoots (.single (exponentsOfContent c) 1)
  weight_constant := by
    rw [linearCombination_readRoots, formalSum_constantMark, readRoots_one]

theorem value_roots (node : Expr) :
    (Valuation.roots mode hasRoots).value node = readRoots mode hasRoots node.formal :=
  linearCombination_readRoots node.linear

end ExactAlgebra
