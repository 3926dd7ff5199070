import ExactAlgebra.Proofs.Canonical.Closure

/-!
# Single steps of products and powers

What one call of an operation does on operands of a known class.
-/

namespace ExactAlgebra

namespace Expr

variable {a b node : Expr}

theorem isFactor_of_isPowered (h : node.isPowered = true) : node.isFactor = true := by
  cases node <;>
    simp_all [isPowered, isFactor, isNumber, group, isExpandedSum, isAtomSum, isSum, degreePower]

theorem isPowered_withPower (h : node.isExpandedSum = true) {p : Rat} (hp : p ≠ 1) :
    (node.withPower p).isPowered = true := by
  cases node <;>
    simp_all [isExpandedSum, isSum, isPowered, isAtomSum, withPower, degreePower]

theorem degreePower_withPower (h : node.isExpandedSum = true) (p : Rat) :
    (node.withPower p).degreePower = p := by
  cases node <;> simp [isExpandedSum, isSum] at h <;> rfl

theorem baseKey_withPower (h : node.isExpandedSum = true) (p : Rat) :
    (node.withPower p).baseKey = .cons (.rational 1) node.content := by
  cases node <;> simp_all [isExpandedSum, isSum, degreePower, baseKey, withPower, content]

/-- Powers of one base in one slot of a product. -/
theorem baseKey_eq_of_multiplicativeKey (ha : a.isPowered = true) (hb : b.isPowered = true)
    (h : a.multiplicativeKey = b.multiplicativeKey) : a.baseKey = b.baseKey := by
  cases a <;> simp only [isPowered, isAtomSum, isSum, Bool.false_and, Bool.false_eq_true] at ha <;>
    cases b <;>
    simp only [isPowered, isAtomSum, isSum, Bool.false_and, Bool.false_eq_true] at hb <;>
    simp only [multiplicativeKey, isAtomSum, isSum, degreePower, baseKey, withPower, content,
      Key.tuple, Bool.false_and, Bool.true_and, Bool.false_eq_true, if_false] at h ⊢ <;>
    (try split_ifs at h) <;> simp_all [Key.append]

end Expr

open ExactAlgebra.Expr

namespace Reduce

variable {mode : Mode} {fuel : Nat} {name : String} {p : Rat} {a b : Expr}

theorem raiseBase_symbol (hname : name ≠ mode.imaginary) (hp : p ≠ 0) :
    raiseBase mode (fuel + 1) (.symbol 1 name 1) (.rational p) = .ok (.symbol 1 name p) := by
  rw [raiseBase.eq_def]
  by_cases hone : p = 1
  · subst hone
    simp [asNode, asExponent]
  · simp [asNode, asExponent, hp, hone, hname, withPower]

theorem raiseBase_neg {base : Expr} (hsum : base.isExpandedSum = true) (hp : p < 0) :
    raiseBase mode (fuel + 1) base (.rational p) = .ok (base.withPower p) := by
  have hzero : p ≠ 0 := hp.ne
  have hone : p ≠ 1 := by
    rintro rfl
    norm_num at hp
  have hle : ¬ 1 < p := by linarith
  rw [raiseBase.eq_def]
  cases base <;> simp [isExpandedSum, isSum] at hsum <;>
    simp [asNode, asExponent, hzero, hone, hle]

theorem raiseBase_zero {base : Expr} (hbase : base.isNumber = false) :
    raiseBase mode (fuel + 1) base (.rational 0) = .ok (.number 1) := by
  rw [raiseBase.eq_def]
  cases base <;> simp_all [asNode, asExponent, isNumber]

/-- An integral power of a constant. -/
theorem numberPower_intCast {c : Rat} {m : Int} (hc : m ≤ 0 → c ≠ 0) :
    numberPower mode (fuel + 1) c m = .ok (.number (Ratio.power c m)) := by
  rw [numberPower.eq_def]
  have hinteger : Ratio.isInteger (m : Rat) = true := by simp [Ratio.isInteger]
  by_cases hzero : c = 0
  · subst hzero
    have hpos : 0 < m := by
      by_contra hnot
      exact hc (not_lt.mp hnot) rfl
    have hpower : Ratio.power 0 m = 0 := by
      rw [Ratio.power, if_pos hpos.le, zero_pow (by omega)]
    simp [hpos, hpower]
  · by_cases hone : m = 0 ∨ c = 1
    · have hpower : Ratio.power c m = 1 := by
        rcases hone with rfl | rfl <;> simp [Ratio.power]
      simp only [hzero, if_false, Int.cast_eq_zero, hone, if_true, hpower]
    · simp only [hzero, if_false, Int.cast_eq_zero, hone, hinteger, if_true, Rat.num_intCast]

/-! ## Coefficients -/

/-- A rational multiple. -/
theorem combineFactors_number (mode : Mode) (fuel : Nat) (c : Rat) (a : Expr) :
    combineFactors mode (fuel + 1) a (.number c) = .ok (scale c a) ∧
      combineFactors mode (fuel + 1) (.number c) a = .ok (scale c a) := by
  by_cases hc : c = 0
  · have hczero : (number c).isZero = true := by simp [isZero, hc]
    rw [combineFactors_of_isZero (by rw [hczero, Bool.or_true]),
      combineFactors_of_isZero (by rw [hczero, Bool.true_or]), hc, scale_zero]
    exact ⟨rfl, rfl⟩
  cases hazero : a.isZero with
  | true =>
      obtain ⟨v, rfl⟩ : ∃ v, a = .number v := by cases a <;> simp_all [isZero]
      have hv : v = 0 := by simpa [isZero] using hazero
      rw [combineFactors_of_isZero (by rw [hazero, Bool.true_or]),
        combineFactors_of_isZero (by rw [hazero, Bool.or_true]), scale_number, hv, zero_mul]
      exact ⟨rfl, rfl⟩
  | false =>
  have hczero : (number c).isZero = false := by simp [isZero, hc]
  have hswap : ∀ y : Expr, y.group.rank ≤ (number c).group.rank → y.isNumber = true := by
    intro y hrank
    cases y <;> simp_all [group, Group.rank, isNumber]
  have hcomm : ∀ y : Expr, y.isNumber = true → scale y.coeff (.number c) = scale c y := by
    intro y hy
    obtain ⟨v, rfl⟩ : ∃ v, y = .number v := by cases y <;> simp_all [isNumber]
    rw [scale_number, scale_number, Expr.coeff, mul_comm]
  constructor
  · obtain ⟨x, y, ⟨rfl, rfl⟩ | ⟨rfl, rfl⟩, hrank, hstep⟩ :=
      combineFactors_cases mode hazero hczero
    · rw [hstep]
      rfl
    · rw [hstep, if_pos (hswap y hrank), hcomm y (hswap y hrank)]
  · obtain ⟨x, y, ⟨rfl, rfl⟩ | ⟨rfl, rfl⟩, hrank, hstep⟩ :=
      combineFactors_cases mode hczero hazero
    · rw [hstep, if_pos (hswap y hrank), hcomm y (hswap y hrank)]
    · rw [hstep]
      rfl

/-- The product of two expressions that are no constants, in the order of their ranks. -/
theorem combineFactors_eq_ite (mode : Mode) (fuel : Nat) (ha : a.isNumber = false)
    (hb : b.isNumber = false) :
    combineFactors mode (fuel + 1) a b =
      (if a.group.rank < b.group.rank then
        multiplyContent mode fuel (b.withCoeff 1) (a.withCoeff 1)
      else multiplyContent mode fuel (a.withCoeff 1) (b.withCoeff 1)).map
        (scale (a.coeff * b.coeff)) := by
  rw [combineFactors, isZero_of_isNumber ha, isZero_of_isNumber hb]
  · simp only [Bool.or_self, Bool.false_eq_true, if_false]
    split_ifs with hrank
    · rw [mul_comm a.coeff]
      cases a <;> first | rfl | cases ha
    · cases b <;> first | rfl | cases hb
  · rintro x y rfl rfl
    cases ha

/-- The product of two expressions that are no constants, from that of their contents. -/
theorem combineFactors_eq_map (mode : Mode) (ha : a.isNumber = false)
    (hb : b.isNumber = false) :
    ∃ x y, ((x = a ∧ y = b) ∨ (x = b ∧ y = a)) ∧ ∀ fuel, combineFactors mode (fuel + 1) a b =
      (multiplyContent mode fuel (x.withCoeff 1) (y.withCoeff 1)).map
        (scale (a.coeff * b.coeff)) := by
  by_cases hrank : a.group.rank < b.group.rank
  · exact ⟨b, a, .inr ⟨rfl, rfl⟩, fun fuel => by
      rw [combineFactors_eq_ite mode fuel ha hb, if_pos hrank]⟩
  · exact ⟨a, b, .inl ⟨rfl, rfl⟩, fun fuel => by
      rw [combineFactors_eq_ite mode fuel ha hb, if_neg hrank]⟩

/-! ## Factors and their keys -/

section

variable {slots : Slots} {factor : Expr} {c : Rat}

/-- Factors under their keys. -/
def keyed (factors : List Expr) : Slots :=
  factors.map fun factor => (factor.multiplicativeKey, factor)

theorem keyed_append (factors factors' : List Expr) :
    keyed (factors ++ factors') = keyed factors ++ keyed factors' := List.map_append

theorem scale_factor (hc : c ≠ 0) (hcoeff : factor.coeff = 1) (hfactor : factor.isFactor = true) :
    scale c factor = factor.withCoeff c := by
  rw [scale_of_not_isExpandedSum hc (isFactor_iff.mp hfactor).2.2, hcoeff, one_mul]

theorem scale_product (hc : c ≠ 0) (coeff : Rat) (slots : Slots) :
    scale c (.product coeff 1 slots) = .product (coeff * c) 1 slots :=
  scale_of_not_isExpandedSum hc rfl

theorem collapse_keyed (node : Expr) : collapse (.product 1 1 (keyed [node])) = node := scale_one _

theorem collapse_two_le (h : 2 ≤ slots.length) :
    collapse (.product c 1 slots) = .product c 1 slots := by
  match slots, h with
  | first :: second :: rest, _ => rfl

theorem productOf_of_two_le {factors : List Expr} (h : 2 ≤ factors.length)
    (hdistinct : Slots.Distinct (keyed factors)) :
    productOf c factors = .product c 1 (keyed factors) := by
  match factors, h with
  | first :: second :: rest, _ =>
      rw [productOf]
      · exact congrArg _ (Slots.ofList_of_distinct hdistinct)
      all_goals simp

theorem multiplyContent_insert (mode : Mode) (fuel : Nat) (c : Rat) (slots : Slots)
    (hfactor : factor.isFactor = true) :
    multiplyContent mode (fuel + 1) (.product c 1 slots) factor =
        insertFactor mode fuel (.product c 1 slots) factor ∧
      multiplyContent mode (fuel + 1) factor (.product c 1 slots) =
        insertFactor mode fuel (.product c 1 slots) factor := by
  obtain ⟨-, hgroup, -⟩ := isFactor_iff.mp hfactor
  rw [multiplyContent.eq_def, multiplyContent.eq_def]
  cases factor <;> simp only [group, ne_eq, not_true_eq_false] at hgroup <;> exact ⟨rfl, rfl⟩

/-- A product and one more factor that is no radical. -/
theorem insertFactor_of_group_ne (mode : Mode) (fuel : Nat) (c : Rat) (slots : Slots)
    (hsum : factor.isExpandedSum = false) (hgroup : factor.group ≠ .radical) :
    insertFactor mode (fuel + 1) (.product c 1 slots) factor =
      (match Slots.find? factor.multiplicativeKey slots with
      | none => .ok (.product c 1 (slots ++ [(factor.multiplicativeKey, factor)]))
      | some old => do
          let merged ← combinePowers mode fuel old factor
          combineFactors mode fuel
            (collapse (.product c 1 (Slots.erase factor.multiplicativeKey slots))) merged) := by
  have hradical : (factor.group == Group.radical) = false := by simpa using hgroup
  rw [insertFactor.eq_def]
  cases hfind : Slots.find? factor.multiplicativeKey slots <;>
    simp [hsum, hradical, Expr.slots, withSlots, hfind]

theorem placeFactors_of_distinct {factors : List Expr}
    (h : Slots.Distinct (slots ++ keyed factors)) :
    placeFactors slots factors = (slots ++ keyed factors, []) := by
  induction factors using List.reverseRecOn with
  | nil => simp [placeFactors, keyed]
  | append_singleton rest factor ih =>
      rw [keyed_append, ← List.append_assoc] at h
      have hrest := ih (h.sublist (List.sublist_append_left _ _))
      have hfresh : Slots.find? factor.multiplicativeKey (slots ++ keyed rest) = none := by
        refine Slots.find?_eq_none_iff.mpr fun slot hslot hkey => ?_
        rw [Slots.Distinct, List.map_append, List.nodup_append] at h
        exact h.2.2 _ (List.mem_map_of_mem hslot) factor.multiplicativeKey (by simp [keyed]) hkey
      rw [placeFactors, List.foldl_append] at *
      rw [hrest, keyed_append, ← List.append_assoc]
      simp only [List.foldl_cons, List.foldl_nil, hfresh]
      rfl

end

end Reduce

end ExactAlgebra
