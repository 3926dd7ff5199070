import ExactAlgebra.Proofs.Expr.Key
import ExactAlgebra.Reduce.Sum

/-!
# What the identities of an expression determine

The content of an expression determines its class, its exponent and its keys.  The
additive keys of terms tell terms whose base can carry several exponents from all
others, and among the former they go by the base.
-/

namespace ExactAlgebra.Expr

/-! ## Classes of expressions -/

/-- Variables, calls, and sums with an exponent other than one: the terms that go by
their base in a sum. -/
def isPowered : Expr → Bool
  | symbol .. | call .. => true
  | node => node.isAtomSum

/-- A factor of a product: no constant, no product, and no sum with exponent one. -/
def isFactor (node : Expr) : Bool :=
  !node.isNumber && node.group != .product && !node.isExpandedSum

/-! ## Children -/

theorem weight_le_slotsWeight {slot : Key × Expr} {slots : Slots} (h : slot ∈ slots) :
    slot.2.weight ≤ slotsWeight slots := by
  induction slots with
  | nil => simp at h
  | cons first rest ih =>
      rw [slotsWeight]
      rcases List.mem_cons.mp h with rfl | h
      · omega
      · have := ih h
        omega

theorem weight_lt_of_mem_slots {node : Expr} {slot : Key × Expr} (h : slot ∈ node.slots) :
    slot.2.weight < node.weight := by
  cases node <;> simp only [slots, List.not_mem_nil] at h <;>
    exact Nat.lt_succ_of_le (weight_le_slotsWeight h)

/-- Induction over the children of sums and products. -/
theorem slots_induction {motive : Expr → Prop}
    (step : ∀ node, (∀ slot ∈ node.slots, motive slot.2) → motive node) (node : Expr) :
    motive node := by
  induction hweight : node.weight using Nat.strong_induction_on generalizing node with
  | h weight ih =>
      subst hweight
      exact step node fun slot hslot => ih _ (weight_lt_of_mem_slots hslot) slot.2 rfl

/-! ## Coefficients and exponents -/

variable (c p : Rat) (a b node : Expr)

@[simp] theorem coeff_withCoeff : (node.withCoeff c).coeff = c := by cases node <;> rfl

@[simp] theorem group_withCoeff : (node.withCoeff c).group = node.group := by cases node <;> rfl

@[simp] theorem degreePower_withCoeff : (node.withCoeff c).degreePower = node.degreePower := by
  cases node <;> rfl

@[simp] theorem exponent_withCoeff : (node.withCoeff c).exponent = node.exponent := by
  cases node <;> rfl

@[simp] theorem slots_withCoeff : (node.withCoeff c).slots = node.slots := by cases node <;> rfl

@[simp] theorem content_withCoeff : (node.withCoeff c).content = node.content := by
  cases node <;> simp [withCoeff, content]

@[simp] theorem isNumber_withCoeff : (node.withCoeff c).isNumber = node.isNumber := by
  cases node <;> rfl

@[simp] theorem isSum_withCoeff : (node.withCoeff c).isSum = node.isSum := by cases node <;> rfl

@[simp] theorem isExpandedSum_withCoeff :
    (node.withCoeff c).isExpandedSum = node.isExpandedSum := by
  simp [isExpandedSum]

@[simp] theorem isAtomSum_withCoeff : (node.withCoeff c).isAtomSum = node.isAtomSum := by
  simp [isAtomSum]

@[simp] theorem isPowered_withCoeff : (node.withCoeff c).isPowered = node.isPowered := by
  cases node <;> rfl

@[simp] theorem isFactor_withCoeff : (node.withCoeff c).isFactor = node.isFactor := by
  simp [isFactor]

@[simp] theorem withCoeff_withCoeff (d : Rat) :
    (node.withCoeff c).withCoeff d = node.withCoeff d := by
  cases node <;> rfl

theorem withCoeff_coeff : node.withCoeff node.coeff = node := by cases node <;> rfl

@[simp] theorem coeff_withPower : (node.withPower p).coeff = node.coeff := by cases node <;> rfl

@[simp] theorem slots_withPower : (node.withPower p).slots = node.slots := by cases node <;> rfl

@[simp] theorem isSum_withPower : (node.withPower p).isSum = node.isSum := by cases node <;> rfl

theorem signature_eq : node.signature = .cons (.rational node.coeff) node.content := rfl

variable {c p a b node}

theorem withCoeff_of_coeff_eq (h : node.coeff = c) : node.withCoeff c = node := by
  rw [← h, withCoeff_coeff]

@[simp] theorem baseKey_withCoeff (h : node.isNumber = false) :
    (node.withCoeff c).baseKey = node.baseKey := by
  cases node with
  | number value => simp [isNumber] at h
  | exponential coeff base exponent => cases base <;> rfl
  | _ => simp [withCoeff, baseKey, withPower, content]

@[simp] theorem additiveKey_withCoeff : (node.withCoeff c).additiveKey = node.additiveKey := by
  cases node with
  | polynomial coeff power terms =>
      cases terms <;> simp [withCoeff, additiveKey, baseKey, withPower, content]
  | exponential coeff base exponent => simp [withCoeff, additiveKey, content]
  | _ => simp [withCoeff, additiveKey, baseKey, withPower, content]

@[simp] theorem multiplicativeKey_withCoeff (h : node.isNumber = false) :
    (node.withCoeff c).multiplicativeKey = node.multiplicativeKey := by
  simp [multiplicativeKey, h]

theorem isSum_iff : node.isSum = true ↔
    (∃ coeff power terms, node = polynomial coeff power terms) ∨
      ∃ coeff power terms, node = composite coeff power terms := by
  cases node <;> simp [isSum]

theorem isNumber_of_isSum (h : node.isSum = true) : node.isNumber = false := by
  cases node <;> first | rfl | cases h

theorem isExpandedSum_iff : node.isExpandedSum = true ↔
    node.isSum = true ∧ node.degreePower = 1 := by
  simp [isExpandedSum]

theorem isZero_of_isNumber (h : node.isNumber = false) : node.isZero = false := by
  cases node <;> first | rfl | cases h

theorem isFactor_iff : node.isFactor = true ↔
    node.isNumber = false ∧ node.group ≠ .product ∧ node.isExpandedSum = false := by
  simp [isFactor, and_assoc]

/-! ## Contents -/

theorem group_eq_of_content (h : a.content = b.content) : a.group = b.group := by
  cases a <;> cases b <;> simp [content, constantMark, Key.tuple, group] at h ⊢

theorem degreePower_eq_of_content (h : a.content = b.content) :
    a.degreePower = b.degreePower := by
  cases a <;> cases b <;> simp_all [content, constantMark, Key.tuple, degreePower]

theorem isNumber_eq_of_content (h : a.content = b.content) : a.isNumber = b.isNumber := by
  have := group_eq_of_content h
  cases a <;> cases b <;> simp_all [group, isNumber]

theorem isSum_eq_of_content (h : a.content = b.content) : a.isSum = b.isSum := by
  have := group_eq_of_content h
  cases a <;> cases b <;> simp_all [group, isSum]

theorem isExpandedSum_eq_of_content (h : a.content = b.content) :
    a.isExpandedSum = b.isExpandedSum := by
  rw [isExpandedSum, isExpandedSum, isSum_eq_of_content h, degreePower_eq_of_content h]

theorem isAtomSum_eq_of_content (h : a.content = b.content) : a.isAtomSum = b.isAtomSum := by
  rw [isAtomSum, isAtomSum, isSum_eq_of_content h, degreePower_eq_of_content h]

theorem isPowered_eq_of_content (h : a.content = b.content) : a.isPowered = b.isPowered := by
  have hgroup := group_eq_of_content h
  have hatom := isAtomSum_eq_of_content h
  cases a <;> cases b <;> simp_all [group, isPowered]

theorem baseKey_exponential (c : Rat) (base exponent : Expr) :
    (exponential c base exponent).baseKey =
      if base.isNumber then .cons (.group .exponential) base.signature else base.signature := by
  cases base <;> simp [baseKey, isNumber, signature, content, Expr.coeff]

theorem baseKey_eq_of_content (hnumber : a.isNumber = false) (h : a.content = b.content) :
    a.baseKey = b.baseKey := by
  have hgroup := group_eq_of_content h
  cases a <;> cases b <;> simp only [group, reduceCtorEq] at hgroup
  case number => simp [isNumber] at hnumber
  case exponential k base exponent k' base' exponent' =>
    simp only [content, Key.tuple, Key.cons.injEq, true_and, and_true] at h
    rw [baseKey_exponential, baseKey_exponential, isNumber_eq_of_content h.1.2]
    simp [signature, h.1]
  all_goals simp_all [content, Key.tuple, baseKey, withPower]

theorem multiplicativeKey_eq_of_content (hnumber : a.isNumber = false)
    (h : a.content = b.content) : a.multiplicativeKey = b.multiplicativeKey := by
  rw [multiplicativeKey, multiplicativeKey, isAtomSum_eq_of_content h,
    degreePower_eq_of_content h, baseKey_eq_of_content hnumber h]

/-! ## Slots of terms -/

theorem additiveKey_of_isPowered (h : node.isPowered = true) :
    node.additiveKey = node.baseKey := by
  cases node <;> simp_all [isPowered, additiveKey, isAtomSum, isSum, degreePower]

theorem additiveKey_of_not_isPowered (h : node.isPowered = false)
    (hsum : node.isExpandedSum = false) : node.additiveKey = node.content := by
  cases node <;>
    simp_all [isPowered, additiveKey, isAtomSum, isExpandedSum, isSum, degreePower, content]

theorem baseKey_of_isPowered (h : node.isPowered = true) :
    node.baseKey = .cons (.rational 1) (node.withPower 1).content := by
  cases node <;> simp_all [isPowered, baseKey, isAtomSum, isSum]

theorem exponent_of_isPowered (h : node.isPowered = true) :
    node.exponent = .rational node.degreePower := by
  cases node <;> simp_all [isPowered, exponent, isAtomSum, isSum]

theorem key_exponent_of_isPowered (h : node.isPowered = true) :
    node.exponent.key = .rational node.degreePower := by
  rw [exponent_of_isPowered h, Exponent.key]

theorem content_eq_of_withPower (ha : a.isPowered = true) (hb : b.isPowered = true)
    (hpower : a.degreePower = b.degreePower)
    (h : (a.withPower 1).content = (b.withPower 1).content) : a.content = b.content := by
  cases a <;> cases b <;>
    simp_all [isPowered, isAtomSum, isSum, withPower, content, Key.tuple, degreePower]

/-- Of one base and one exponent there is only one content. -/
theorem content_eq_of_baseKey (ha : a.isPowered = true) (hb : b.isPowered = true)
    (hpower : a.degreePower = b.degreePower) (h : a.baseKey = b.baseKey) :
    a.content = b.content := by
  rw [baseKey_of_isPowered ha, baseKey_of_isPowered hb, Key.cons.injEq] at h
  exact content_eq_of_withPower ha hb hpower h.2

theorem content_ne_cons_rational (x : Rat) (k : Key) :
    node.content ≠ .cons (.rational x) k := by
  cases node <;> simp [content, constantMark, Key.tuple]

/-- Terms in one slot are either both named by their base or both by their content. -/
theorem isPowered_eq_of_additiveKey (ha : a.isExpandedSum = false)
    (hb : b.isExpandedSum = false) (h : a.additiveKey = b.additiveKey) :
    a.isPowered = b.isPowered := by
  cases hpa : a.isPowered <;> cases hpb : b.isPowered <;> try rfl
  · rw [additiveKey_of_not_isPowered hpa ha, additiveKey_of_isPowered hpb,
      baseKey_of_isPowered hpb] at h
    exact absurd h (content_ne_cons_rational _ _)
  · rw [additiveKey_of_not_isPowered hpb hb, additiveKey_of_isPowered hpa,
      baseKey_of_isPowered hpa] at h
    exact absurd h.symm (content_ne_cons_rational _ _)

theorem additiveKey_eq_of_content (ha : a.isExpandedSum = false)
    (h : a.content = b.content) : a.additiveKey = b.additiveKey := by
  have hb : b.isExpandedSum = false := isExpandedSum_eq_of_content h ▸ ha
  have hpowered := isPowered_eq_of_content h
  cases hpa : a.isPowered with
  | false =>
      rw [additiveKey_of_not_isPowered hpa ha,
        additiveKey_of_not_isPowered (hpowered ▸ hpa) hb, h]
  | true =>
      have hnumber : a.isNumber = false := by
        cases a <;> simp_all [isPowered, isNumber, isAtomSum, isSum]
      rw [additiveKey_of_isPowered hpa, additiveKey_of_isPowered (hpowered ▸ hpa),
        baseKey_eq_of_content hnumber h]

end ExactAlgebra.Expr
