import ExactAlgebra.Proofs.Canonical.Step
import ExactAlgebra.Proofs.Value.Interpretation

/-!
# Values of products

Products of rational expressions are found within a fixed number of nested calls,
and their values are the products of the values.
-/

namespace ExactAlgebra

open ExactAlgebra.Expr

namespace Interpretation

open Reduce

variable {mode : Mode} {A : Type*} [CommRing A] [Algebra ℚ A] (I : Interpretation mode A)
  {fuel : Nat} {a b node total factor : Expr}

/-! ## Powers of one base -/

theorem isPowered_of_isFactor (h : Canonical I.rules node) (hfactor : node.isFactor = true) :
    node.isPowered = true := by
  obtain ⟨hnumber, hgroup, hsum⟩ := isFactor_iff.mp hfactor
  cases h with
  | number => simp [isNumber] at hnumber
  | radical _ _ hrules => cases hrules
  | symbol => rfl
  | constantBase _ _ _ hrules => exact hrules.elim
  | plainBase _ _ hrules => exact hrules.elim
  | call _ _ hrules => exact hrules.elim
  | product => exact absurd rfl hgroup
  | polynomial => simp_all [isExpandedSum, isPowered, isAtomSum, isSum]
  | composite => simp_all [isExpandedSum, isPowered, isAtomSum, isSum]

theorem raise_add {x : A} (hx : I.unit x) {j k : ℕ} (hj : 0 < j) (hk : 0 < k) :
    I.raise x (-(j + k : ℕ)) = I.raise x (-j) * I.raise x (-k) := by
  have hjk := I.raise_neg hx (Nat.add_pos_left hj k)
  rw [mul_comm] at hjk
  refine inv_unique hjk ?_
  calc x ^ (j + k) * (I.raise x (-j) * I.raise x (-k)) =
        (I.raise x (-j) * x ^ j) * (I.raise x (-k) * x ^ k) := by ring
    _ = 1 := by rw [I.raise_neg hx hj, I.raise_neg hx hk, mul_one]

theorem neg_natCast_lt_zero {k : ℕ} (hk : 0 < k) : -(k : ℚ) < 0 :=
  neg_lt_zero.mpr (Nat.cast_pos.mpr hk)

/-- A variable or a sum, to a power. -/
inductive IsPower : Expr → Prop
  | symbol {name : String} {p : ℚ} (hp : p ≠ 0) (hvalid : I.valid name p) :
      IsPower (.symbol 1 name p)
  | sum {base : Expr} {k : ℕ} (hbase : Canonical I.rules base)
      (hsum : base.isExpandedSum = true) (hk : 0 < k) (hunit : I.unit (I.value base)) :
      IsPower (base.withPower (-k))

theorem isPower_of_canonical (h : Canonical I.rules node) (hfactor : node.isFactor = true)
    (hcoeff : node.coeff = 1) : I.IsPower node := by
  have hpowered := I.isPowered_of_isFactor h hfactor
  cases h <;> simp [isPowered, isAtomSum, isSum, degreePower] at hpowered
  case symbol hp hrules =>
    simp only [Expr.coeff] at hcoeff
    subst hcoeff
    exact .symbol hp hrules
  case call hrules _ => exact hrules.elim
  case polynomial coeff power terms hshape hrules hslots hterms =>
    obtain ⟨k, hk, rfl, hunit⟩ := hrules hpowered
    simp only [Expr.coeff] at hcoeff
    subst hcoeff
    have hbase : Canonical I.rules (.polynomial 1 1 terms) := .expandedPolynomial hslots hterms
    have hvalue := I.value_of_isExpandedSum hbase rfl
    exact .sum hbase rfl hk (hvalue ▸ hunit)
  case composite coeff power terms hshape hrules hslots hterms =>
    obtain ⟨k, hk, rfl, hunit⟩ := hrules hpowered
    simp only [Expr.coeff] at hcoeff
    subst hcoeff
    have hbase : Canonical I.rules (.composite 1 1 terms) := .expandedComposite hslots hterms
    have hvalue := I.value_of_isExpandedSum hbase rfl
    exact .sum hbase rfl hk (hvalue ▸ hunit)

variable {I} in
theorem IsPower.canonical (h : I.IsPower node) : Canonical I.rules node := by
  cases h with
  | symbol hp hvalid => exact .symbol one_ne_zero hp hvalid
  | @sum base k hbase hsum hk hunit =>
      have hneg := neg_natCast_lt_zero hk
      have hcoeff := hbase.coeff_of_isExpandedSum hsum
      have hshape : IsSum base.coeff (-k) := .inr ⟨by rw [hcoeff]; exact one_ne_zero, .inl hneg⟩
      rw [I.value_of_isExpandedSum hbase hsum] at hunit
      have hrules : -(k : ℚ) ≠ 1 → I.rules.sum (-k) base.slots := fun _ => ⟨k, hk, rfl, hunit⟩
      cases hbase <;> simp [isExpandedSum, isSum] at hsum
      case polynomial hslots hterms => exact .polynomial hshape hrules hslots hterms
      case composite hslots hterms => exact .composite hshape hrules hslots hterms

variable {I} in
theorem IsPower.isPowered (h : I.IsPower node) : node.isPowered = true := by
  cases h with
  | symbol => rfl
  | sum _ hsum hk =>
      have := neg_natCast_lt_zero hk
      exact isPowered_withPower hsum (by linarith)

variable {I} in
theorem IsPower.coeff (h : I.IsPower node) : node.coeff = 1 := by
  cases h with
  | symbol => rfl
  | @sum base _ hbase hsum _ _ =>
      rw [← hbase.coeff_of_isExpandedSum hsum]
      cases base <;> rfl

theorem baseOf_withPower {base : Expr} (hbase : Canonical I.rules base)
    (hsum : base.isExpandedSum = true) (p : ℚ) : (base.withPower p).baseOf = base := by
  have hcoeff := hbase.coeff_of_isExpandedSum hsum
  cases base <;>
    simp_all [isExpandedSum, isSum, withPower, baseOf, withCoeff, degreePower, Expr.coeff]

theorem value_withPower {base : Expr} (hbase : Canonical I.rules base)
    (hsum : base.isExpandedSum = true) (p : ℚ) :
    I.value (base.withPower p) = I.raise (I.value base) p := by
  have hcoeff := hbase.coeff_of_isExpandedSum hsum
  rw [I.value_of_isExpandedSum hbase hsum]
  cases base <;> simp_all [isExpandedSum, isSum, withPower, Expr.coeff, slots]

theorem combinePowers_of_isPower (ha : I.IsPower a) (hb : I.IsPower b) :
    combinePowers mode (fuel + 1) a b =
      raiseBase mode fuel a.baseOf (.rational (a.degreePower + b.degreePower)) := by
  rw [combinePowers.eq_def]
  simp only [exponent_of_isPowered ha.isPowered, exponent_of_isPowered hb.isPowered,
    addExponents, ha.coeff, hb.coeff, mul_one, bind, Except.bind, scale_one]
  cases raiseBase mode fuel a.baseOf (.rational (a.degreePower + b.degreePower)) <;> rfl

theorem multiplicativeKey_withPower {base : Expr} (hsum : base.isExpandedSum = true) {p q : ℚ}
    (hp : p < 0) (hq : q < 0) :
    (base.withPower p).multiplicativeKey = (base.withPower q).multiplicativeKey := by
  have hpne : p ≠ 1 := by linarith
  have hqne : q ≠ 1 := by linarith
  cases base <;> simp [isExpandedSum, isSum] at hsum <;>
    simp [multiplicativeKey, withPower, isAtomSum, isSum, degreePower, baseKey, content, hp, hq,
      hpne, hqne]

/-- The outcome of two powers of one base: one, or a power in the same slot. -/
theorem exists_combinePowers (fuel : Nat) (ha : I.IsPower a) (hb : I.IsPower b)
    (hkey : a.multiplicativeKey = b.multiplicativeKey) :
    ∃ node, combinePowers mode (fuel + 2) a b = .ok node ∧ I.value node = I.value a * I.value b ∧
      (node = .number 1 ∨ (I.IsPower node ∧ node.multiplicativeKey = a.multiplicativeKey)) := by
  have hbase := baseKey_eq_of_multiplicativeKey ha.isPowered hb.isPowered hkey
  rw [I.combinePowers_of_isPower ha hb]
  cases ha with
  | @symbol name p hp hvalid =>
      cases hb with
      | @symbol name' q hq hvalid' =>
          have hname : name = name' := by
            simpa [baseKey, withPower, content, Key.tuple] using hbase
          subst hname
          simp only [degreePower, baseOf, withCoeff, withPower, value_symbol, one_smul]
          by_cases hzero : p + q = 0
          · exact ⟨.number 1, by rw [hzero, raiseBase_zero rfl],
              by rw [value_number, map_one, I.symbol_cancel hvalid hvalid' hzero], .inl rfl⟩
          · obtain ⟨hsum, hvalue⟩ := I.symbol_add hvalid hvalid' hzero
            refine ⟨_, raiseBase_symbol (I.ne_imaginary hvalid) hzero, ?_,
              .inr ⟨.symbol hzero hsum, rfl⟩⟩
            rw [value_symbol, one_smul, hvalue]
      | @sum base k _ hsum _ _ =>
          cases base <;> simp [isExpandedSum, isSum] at hsum <;>
            simp [baseKey, withPower, content, Key.tuple] at hbase
  | @sum base j hcanonical hsum hj hunit =>
      cases hb with
      | @symbol name' q hq hvalid' =>
          cases base <;> simp [isExpandedSum, isSum] at hsum <;>
            simp [baseKey, withPower, content, Key.tuple] at hbase
      | @sum base' k hcanonical' hsum' hk hunit' =>
          rw [baseKey_withPower hsum, baseKey_withPower hsum', Key.cons.injEq] at hbase
          have hvalue : I.value base = I.value base' := by
            have := I.value_eq_of_content hcanonical hcanonical' hbase.2
            rwa [withCoeff_of_coeff_eq (hcanonical.coeff_of_isExpandedSum hsum),
              withCoeff_of_coeff_eq (hcanonical'.coeff_of_isExpandedSum hsum')] at this
          have hpower : (base.withPower (-j)).degreePower + (base'.withPower (-k)).degreePower =
              -((j + k : ℕ) : ℚ) := by
            rw [degreePower_withPower hsum, degreePower_withPower hsum']
            push_cast
            ring
          have hjk := Nat.add_pos_left hj k
          rw [I.baseOf_withPower hcanonical hsum, hpower,
            raiseBase_neg hsum (neg_natCast_lt_zero hjk)]
          refine ⟨_, rfl, ?_, .inr ⟨.sum hcanonical hsum hjk hunit,
            multiplicativeKey_withPower hsum (neg_natCast_lt_zero hjk) (neg_natCast_lt_zero hj)⟩⟩
          rw [I.value_withPower hcanonical hsum, I.value_withPower hcanonical hsum,
            I.value_withPower hcanonical' hsum', ← hvalue, I.raise_add hunit hj hk]

/-! ## Products of terms -/

/-- The outcome is a term, which is no expanded sum, with a given value. -/
def ResultsTerm (outcome : Except Fault Expr) (x : A) : Prop :=
  ∃ node, outcome = .ok node ∧ Canonical I.rules node ∧ node.isExpandedSum = false ∧
    I.value node = x

theorem isPower_of_mem {factors : Slots} (hslots : IsProduct I.rules factors)
    (hfactors : ∀ slot ∈ factors, Canonical I.rules slot.2) :
    ∀ slot ∈ factors, I.IsPower slot.2 :=
  fun slot hslot => I.isPower_of_canonical (hfactors slot hslot) (hslots.factor slot hslot)
    (hslots.coeff slot hslot)

theorem group_ne_radical_of_isPowered (h : node.isPowered = true) : node.group ≠ .radical := by
  cases node <;> simp_all [isPowered, isAtomSum, isSum, group]

/-- Two powers of different bases, in either order. -/
theorem multiplyContent_of_isPower (ha : I.IsPower a) (hb : I.IsPower b) :
    multiplyContent mode (fuel + 1) a b =
      if a.multiplicativeKey = b.multiplicativeKey then combinePowers mode fuel a b
      else .ok (pairFactors a b) := by
  have hasum := not_isExpandedSum_of_isPowered ha.isPowered
  have hbsum := not_isExpandedSum_of_isPowered hb.isPowered
  have hapowered := ha.isPowered
  have hbpowered := hb.isPowered
  rw [multiplyContent.eq_def]
  cases a <;> simp [isPowered, isAtomSum, isSum] at hapowered <;>
    cases b <;> simp [isPowered, isAtomSum, isSum] at hbpowered <;>
    simp [hasum, hbsum]

theorem value_pairFactors (hkey : a.multiplicativeKey ≠ b.multiplicativeKey) :
    I.value (pairFactors a b) = I.value a * I.value b := by
  rw [pairFactors, Slots.ofList_pair hkey, value_product, one_smul, productValue_eq]
  simp

theorem resultsTerm_multiplyContent (ha : I.IsPower a) (hb : I.IsPower b) :
    I.ResultsTerm (multiplyContent mode (fuel + 3) a b) (I.value a * I.value b) := by
  rw [I.multiplyContent_of_isPower ha hb]
  split_ifs with hkey
  · obtain ⟨node, hok, hvalue, hone | ⟨hpower, -⟩⟩ := I.exists_combinePowers fuel ha hb hkey
    · exact ⟨node, hok, hone ▸ .number 1, by rw [hone]; rfl, hvalue⟩
    · exact ⟨node, hok, hpower.canonical, not_isExpandedSum_of_isPowered hpower.isPowered, hvalue⟩
  · refine ⟨_, rfl, canonical_pairFactors I.rules_hereditary ha.canonical hb.canonical ha.coeff
      hb.coeff (isFactor_of_isPowered ha.isPowered) (isFactor_of_isPowered hb.isPowered) hkey
      fun h => group_ne_radical_of_isPowered ha.isPowered h.1, rfl, I.value_pairFactors hkey⟩

/-! ## Coefficients -/

variable {I} in
theorem ResultsTerm.map_scale {outcome : Except Fault Expr} {x : A} (c : ℚ)
    (h : I.ResultsTerm outcome x) : I.ResultsTerm (outcome.map (scale c)) (c • x) := by
  obtain ⟨node, rfl, hnode, hsum, rfl⟩ := h
  refine ⟨_, rfl, canonical_scale_any I.rules_hereditary c hnode, ?_, I.value_scale c hnode⟩
  by_cases hc : c = 0
  · rw [hc, scale_zero]
    rfl
  · rwa [isExpandedSum_scale hc]

theorem value_mul_eq_smul (a b : Expr) : I.value a * I.value b =
    (a.coeff * b.coeff) • (I.value (a.withCoeff 1) * I.value (b.withCoeff 1)) := by
  rw [I.value_eq_smul a, I.value_eq_smul b, smul_mul_smul_comm]

/-- The product of two terms, from that of their contents in both orders. -/
theorem resultsTerm_of_content (ha : a.isNumber = false) (hb : b.isNumber = false)
    (h : ∀ x y, ((x = a.withCoeff 1 ∧ y = b.withCoeff 1) ∨
        (x = b.withCoeff 1 ∧ y = a.withCoeff 1)) →
      I.ResultsTerm (multiplyContent mode fuel x y) (I.value x * I.value y)) :
    I.ResultsTerm (combineFactors mode (fuel + 1) a b) (I.value a * I.value b) := by
  obtain ⟨x, y, hxy, hstep⟩ := combineFactors_eq_map mode ha hb
  rw [hstep, I.value_mul_eq_smul a b]
  refine ResultsTerm.map_scale _ ?_
  rcases hxy with ⟨rfl, rfl⟩ | ⟨rfl, rfl⟩
  · exact h _ _ (.inl ⟨rfl, rfl⟩)
  · rw [mul_comm]
    exact h _ _ (.inr ⟨rfl, rfl⟩)

/-! ## Products and one more factor -/

variable {factors : Slots} {c : ℚ}

theorem value_product_append (slots slots' : Slots) : I.value (.product c 1 (slots ++ slots')) =
    I.value (.product c 1 slots) * I.productValue slots' := by
  rw [value_product, value_product, productValue_eq, List.map_append, List.prod_append,
    ← productValue_eq, ← productValue_eq, smul_mul_assoc]

theorem canonical_append (hc : c ≠ 0) (hslots : IsProductPart I.rules factors)
    (hfactors : ∀ slot ∈ factors, Canonical I.rules slot.2) (hne : factors ≠ [])
    (hfactor : I.IsPower factor)
    (hfresh : ∀ slot ∈ factors, slot.1 ≠ factor.multiplicativeKey) :
    Canonical I.rules (.product c 1 (factors ++ [(factor.multiplicativeKey, factor)])) := by
  have hpart := hslots.append hfactor.coeff (isFactor_of_isPowered hfactor.isPowered)
    (group_ne_radical_of_isPowered hfactor.isPowered) rfl hfresh
  refine .product hc (hpart.isProduct ?_)
    (List.forall_mem_append.mpr ⟨hfactors, List.forall_mem_singleton.mpr hfactor.canonical⟩)
  have := List.length_pos_iff.mpr hne
  simp only [List.length_append, List.length_singleton]
  omega

theorem resultsTerm_insert_fresh (hc : c ≠ 0) (hslots : IsProductPart I.rules factors)
    (hfactors : ∀ slot ∈ factors, Canonical I.rules slot.2) (hne : factors ≠ [])
    (hfactor : I.IsPower factor)
    (hfresh : ∀ slot ∈ factors, slot.1 ≠ factor.multiplicativeKey) :
    I.ResultsTerm (insertFactor mode (fuel + 1) (.product c 1 factors) factor)
      (I.value (.product c 1 factors) * I.value factor) := by
  rw [insertFactor_of_group_ne mode _ c factors
    (not_isExpandedSum_of_isPowered hfactor.isPowered)
    (group_ne_radical_of_isPowered hfactor.isPowered), Slots.find?_eq_none_iff.mpr hfresh]
  refine ⟨_, rfl, I.canonical_append hc hslots hfactors hne hfactor hfresh, rfl, ?_⟩
  rw [value_product_append, productValue_eq]
  simp

theorem value_collapse_product (c : ℚ)
    (hfactors : ∀ slot ∈ factors, Canonical I.rules slot.2) :
    I.value (collapse (.product c 1 factors)) = I.value (.product c 1 factors) := by
  match factors with
  | [] => simp [collapse, productValue_eq, Algebra.algebraMap_eq_smul_one]
  | [(key, child)] =>
      rw [collapse, I.value_scale c (hfactors _ List.mem_cons_self), value_product, productValue_eq]
      simp
  | first :: second :: rest => rfl

theorem isExpandedSum_collapse_product (hc : c ≠ 0)
    (hpowers : ∀ slot ∈ factors, I.IsPower slot.2) (hne : factors ≠ []) :
    (collapse (.product c 1 factors)).isExpandedSum = false := by
  match factors, hne with
  | [(key, child)], _ =>
      rw [collapse, isExpandedSum_scale hc]
      exact not_isExpandedSum_of_isPowered (hpowers _ List.mem_cons_self).isPowered
  | first :: second :: rest, _ => rfl

/-- What is left of a product, and a power whose slot is free. -/
theorem resultsTerm_collapse (hc : c ≠ 0) (hslots : IsProductPart I.rules factors)
    (hpowers : ∀ slot ∈ factors, I.IsPower slot.2) (hne : factors ≠ []) (hfactor : I.IsPower factor)
    (hfresh : ∀ slot ∈ factors, slot.1 ≠ factor.multiplicativeKey) :
    I.ResultsTerm (combineFactors mode (fuel + 4) (collapse (.product c 1 factors)) factor)
      (I.value (.product c 1 factors) * I.value factor) := by
  have hfactors : ∀ slot ∈ factors, Canonical I.rules slot.2 :=
    fun slot hslot => (hpowers slot hslot).canonical
  have hnumber := not_isNumber_of_isPowered hfactor.isPowered
  have hfactorone : factor.withCoeff 1 = factor := withCoeff_of_coeff_eq hfactor.coeff
  rw [← I.value_collapse_product c hfactors]
  match factors, hne with
  | [(key, child)], _ =>
      have hchild : I.IsPower child := hpowers _ List.mem_cons_self
      have hchildnumber := not_isNumber_of_isPowered hchild.isPowered
      have hchildone : (scale c child).withCoeff 1 = child := by
        rw [scale_of_not_isExpandedSum hc (not_isExpandedSum_of_isPowered hchild.isPowered),
          withCoeff_withCoeff, withCoeff_of_coeff_eq hchild.coeff]
      refine I.resultsTerm_of_content (by rwa [collapse, isNumber_scale hc]) hnumber ?_
      rintro x y (⟨rfl, rfl⟩ | ⟨rfl, rfl⟩)
      · rw [collapse, hchildone, hfactorone]
        exact I.resultsTerm_multiplyContent hchild hfactor
      · rw [collapse, hchildone, hfactorone]
        exact I.resultsTerm_multiplyContent hfactor hchild
  | first :: second :: rest, hne =>
      refine I.resultsTerm_of_content rfl hnumber ?_
      obtain ⟨hleft, hright⟩ := multiplyContent_insert mode (fuel + 2) 1
        (first :: second :: rest) (isFactor_of_isPowered hfactor.isPowered)
      have hinsert : I.ResultsTerm (insertFactor mode (fuel + 2) _ factor) _ :=
        I.resultsTerm_insert_fresh one_ne_zero hslots hfactors hne hfactor hfresh
      rintro x y (⟨rfl, rfl⟩ | ⟨rfl, rfl⟩)
      · rw [hfactorone]
        exact hleft ▸ hinsert
      · rw [hfactorone, mul_comm]
        exact hright ▸ hinsert

theorem resultsTerm_insertFactor (hc : c ≠ 0) (hslots : IsProduct I.rules factors)
    (hfactors : ∀ slot ∈ factors, Canonical I.rules slot.2) (hfactor : I.IsPower factor) :
    I.ResultsTerm (insertFactor mode (fuel + 5) (.product c 1 factors) factor)
      (I.value (.product c 1 factors) * I.value factor) := by
  have hpowers := I.isPower_of_mem hslots hfactors
  have htwo := hslots.two_le
  cases hfind : Slots.find? factor.multiplicativeKey factors with
  | none =>
      refine I.resultsTerm_insert_fresh hc hslots.part hfactors ?_ hfactor
        (Slots.find?_eq_none_iff.mp hfind)
      rintro rfl
      simp at htwo
  | some old =>
      have hmem := Slots.mem_of_find? hfind
      have hold : I.IsPower old := hpowers _ hmem
      have hkey : old.multiplicativeKey = factor.multiplicativeKey := (hslots.key _ hmem).symm
      have hrest := hslots.part.sublist I.rules_hereditary
        (Slots.erase_sublist factor.multiplicativeKey factors)
      have hrestpowers : ∀ slot ∈ Slots.erase factor.multiplicativeKey factors, I.IsPower slot.2 :=
        fun slot hslot => hpowers slot (Slots.mem_erase.mp hslot).1
      have hne : Slots.erase factor.multiplicativeKey factors ≠ [] := by
        have := Slots.length_erase hslots.distinct hmem
        rintro hnil
        rw [hnil] at this
        simp at this
        omega
      have hvalue : I.value (.product c 1 factors) =
          I.value (.product c 1 (Slots.erase factor.multiplicativeKey factors)) * I.value old := by
        rw [value_product, value_product, productValue_eq, productValue_eq,
          ((Slots.perm_cons_erase hslots.distinct hmem).map _).prod_eq, List.map_cons,
          List.prod_cons, mul_comm (I.value old), smul_mul_assoc]
      rw [insertFactor_of_group_ne mode _ c factors
        (not_isExpandedSum_of_isPowered hfactor.isPowered)
        (group_ne_radical_of_isPowered hfactor.isPowered), hfind, hvalue, mul_assoc]
      obtain ⟨merged, hok, hmerged, hone | ⟨hpower, hsame⟩⟩ :=
        I.exists_combinePowers (fuel + 2) hold hfactor hkey
      all_goals
        simp only [hok, bind, Except.bind, ← hmerged]
      · have hsum := I.isExpandedSum_collapse_product hc hrestpowers hne
        have hrestfactors : ∀ slot ∈ Slots.erase factor.multiplicativeKey factors,
            Canonical I.rules slot.2 := fun slot hslot => (hrestpowers slot hslot).canonical
        rw [hone, (combineFactors_number mode _ 1 _).1, scale_one,
          value_number, map_one, mul_one, ← I.value_collapse_product c hrestfactors]
        exact ⟨_, rfl, canonical_collapse_product I.rules_hereditary hc hrest hrestfactors, hsum,
          rfl⟩
      · refine I.resultsTerm_collapse hc hrest hrestpowers hne hpower fun slot hslot => ?_
        rw [hsame, hkey]
        exact (Slots.mem_erase.mp hslot).2

/-! ## Terms -/

/-- A term that is no constant: a power or a product. -/
theorem term_cases (h : Canonical I.rules node) (hsum : node.isExpandedSum = false)
    (hnumber : node.isNumber = false) :
    I.IsPower (node.withCoeff 1) ∨ ∃ factors, node.withCoeff 1 = .product 1 1 factors ∧
      IsProduct I.rules factors ∧ ∀ slot ∈ factors, Canonical I.rules slot.2 := by
  by_cases hgroup : node.group = .product
  · obtain ⟨c, factors, rfl, -, hslots, hfactors⟩ := product_of_group h hgroup
    exact .inr ⟨factors, rfl, hslots, hfactors⟩
  · refine .inl (I.isPower_of_canonical h.withCoeff_one (isFactor_iff.mpr ?_) (coeff_withCoeff _ _))
    simp [hnumber, hgroup, hsum]

theorem resultsTerm_multiplyContent_power (fuel : Nat)
    (ha : I.IsPower a ∨ ∃ factors, a = .product 1 1 factors ∧
      IsProduct I.rules factors ∧ ∀ slot ∈ factors, Canonical I.rules slot.2)
    (hb : I.IsPower b) :
    I.ResultsTerm (multiplyContent mode (fuel + 6) a b) (I.value a * I.value b) ∧
      I.ResultsTerm (multiplyContent mode (fuel + 6) b a) (I.value a * I.value b) := by
  rcases ha with ha | ⟨factors, rfl, hslots, hfactors⟩
  · refine ⟨I.resultsTerm_multiplyContent ha hb, ?_⟩
    rw [mul_comm]
    exact I.resultsTerm_multiplyContent hb ha
  · obtain ⟨hleft, hright⟩ := multiplyContent_insert mode (fuel + 5) 1 factors
      (isFactor_of_isPowered hb.isPowered)
    rw [hleft, hright, and_self]
    exact I.resultsTerm_insertFactor one_ne_zero hslots hfactors hb

theorem value_scale_mul (c : ℚ) (h : Canonical I.rules a) :
    I.value (scale c a) = I.value a * I.value (.number c) := by
  rw [I.value_scale c h, value_number, Algebra.smul_def, mul_comm]

/-- A rational multiple of a term. -/
theorem resultsTerm_number (c : ℚ) (ha : Canonical I.rules a) (hsum : a.isExpandedSum = false) :
    I.ResultsTerm (combineFactors mode (fuel + 1) a (.number c)) (I.value a * I.value (.number c)) ∧
      I.ResultsTerm (combineFactors mode (fuel + 1) (.number c) a)
        (I.value a * I.value (.number c)) := by
  obtain ⟨hleft, hright⟩ := combineFactors_number mode fuel c a
  rw [hleft, hright, and_self]
  refine ⟨_, rfl, canonical_scale_any I.rules_hereditary c ha, ?_, I.value_scale_mul c ha⟩
  by_cases hc : c = 0
  · rw [hc, scale_zero]
    rfl
  · rwa [isExpandedSum_scale hc]

theorem eq_number_of_isNumber (h : node.isNumber = true) : ∃ c, node = .number c := by
  cases node <;> simp_all [isNumber]

theorem resultsTerm_combineFactors_power (ha : Canonical I.rules a)
    (hasum : a.isExpandedSum = false) (hb : I.IsPower b) :
    I.ResultsTerm (combineFactors mode (fuel + 7) a b) (I.value a * I.value b) := by
  cases hnumber : a.isNumber with
  | true =>
      obtain ⟨c, rfl⟩ := eq_number_of_isNumber hnumber
      rw [mul_comm]
      exact (I.resultsTerm_number c hb.canonical (not_isExpandedSum_of_isPowered hb.isPowered)).2
  | false =>
      refine I.resultsTerm_of_content hnumber (not_isNumber_of_isPowered hb.isPowered) ?_
      obtain ⟨hleft, hright⟩ := I.resultsTerm_multiplyContent_power fuel
        (I.term_cases ha hasum hnumber) hb
      rw [withCoeff_of_coeff_eq hb.coeff]
      rintro x y (⟨rfl, rfl⟩ | ⟨rfl, rfl⟩)
      · exact hleft
      · rw [mul_comm]
        exact hright

theorem resultsTerm_foldlM {step : Expr → Expr → Except Fault Expr} {factors : Slots}
    (hstep : ∀ total, Canonical I.rules total → total.isExpandedSum = false → ∀ slot ∈ factors,
      I.ResultsTerm (step total slot.2) (I.value total * I.value slot.2))
    (ha : Canonical I.rules a) (hsum : a.isExpandedSum = false) :
    I.ResultsTerm (factors.children.foldlM step a) (I.value a * I.productValue factors) := by
  induction factors generalizing a with
  | nil => exact ⟨a, rfl, ha, hsum, by rw [productValue, mul_one]⟩
  | cons slot rest ih =>
      obtain ⟨total, hok, htotal, htotalsum, hvalue⟩ := hstep a ha hsum slot List.mem_cons_self
      have hrest := ih (fun total htotal hsum slot hslot =>
        hstep total htotal hsum slot (List.mem_cons_of_mem _ hslot)) htotal htotalsum
      rw [hvalue, mul_assoc] at hrest
      rw [productValue]
      simpa only [Slots.children, List.map_cons, List.foldlM_cons, hok, bind, Except.bind]
        using hrest

theorem resultsTerm_product {factors factors' : Slots} (hslots : IsProduct I.rules factors)
    (hfactors : ∀ slot ∈ factors, Canonical I.rules slot.2) (hslots' : IsProduct I.rules factors')
    (hfactors' : ∀ slot ∈ factors', Canonical I.rules slot.2) :
    I.ResultsTerm (multiplyContent mode (fuel + 8) (.product 1 1 factors) (.product 1 1 factors'))
      (I.value (.product 1 1 factors) * I.value (.product 1 1 factors')) := by
  rw [multiplyContent.eq_def, value_product, value_product, one_smul, one_smul]
  have hpowers := I.isPower_of_mem hslots' hfactors'
  have hfold : I.ResultsTerm (factors'.children.foldlM (combineFactors mode (fuel + 7))
      (.product 1 1 factors)) _ :=
    I.resultsTerm_foldlM (fun total htotal hsum slot hslot =>
      I.resultsTerm_combineFactors_power htotal hsum (hpowers slot hslot))
      (.product one_ne_zero hslots hfactors) rfl
  rwa [value_product, one_smul] at hfold

/-- The product of two terms. -/
theorem resultsTerm_combineFactors (ha : Canonical I.rules a) (hb : Canonical I.rules b)
    (hasum : a.isExpandedSum = false) (hbsum : b.isExpandedSum = false) :
    I.ResultsTerm (combineFactors mode (fuel + 9) a b) (I.value a * I.value b) := by
  cases hanumber : a.isNumber with
  | true =>
      obtain ⟨c, rfl⟩ := eq_number_of_isNumber hanumber
      rw [mul_comm]
      exact (I.resultsTerm_number c hb hbsum).2
  | false =>
  cases hbnumber : b.isNumber with
  | true =>
      obtain ⟨c, rfl⟩ := eq_number_of_isNumber hbnumber
      exact (I.resultsTerm_number c ha hasum).1
  | false =>
      refine I.resultsTerm_of_content hanumber hbnumber ?_
      have hacases := I.term_cases ha hasum hanumber
      rcases I.term_cases hb hbsum hbnumber with hbpower | ⟨factors', hb', hslots', hfactors'⟩
      · obtain ⟨hleft, hright⟩ := I.resultsTerm_multiplyContent_power (fuel + 2) hacases hbpower
        rintro x y (⟨rfl, rfl⟩ | ⟨rfl, rfl⟩)
        · exact hleft
        · rw [mul_comm]
          exact hright
      · rcases hacases with hapower | ⟨factors, ha', hslots, hfactors⟩
        · obtain ⟨hleft, hright⟩ := I.resultsTerm_multiplyContent_power (fuel + 2)
            (.inr ⟨factors', hb', hslots', hfactors'⟩) hapower
          rintro x y (⟨rfl, rfl⟩ | ⟨rfl, rfl⟩)
          · rw [mul_comm]
            exact hright
          · exact hleft
        · rw [ha', hb']
          rintro x y (⟨rfl, rfl⟩ | ⟨rfl, rfl⟩)
          · exact I.resultsTerm_product hslots hfactors hslots' hfactors'
          · exact I.resultsTerm_product hslots' hfactors' hslots hfactors

end Interpretation

end ExactAlgebra
