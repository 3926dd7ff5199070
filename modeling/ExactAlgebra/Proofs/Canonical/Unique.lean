import ExactAlgebra.Proofs.Canonical.Signature

/-!
# Canonical expressions are determined by their coefficients

The children of a canonical sum share no content, so the coefficients of the sum say
which children it has.
-/

namespace ExactAlgebra

namespace Slots

/-- No two children share a content. -/
def Separate (slots : Slots) : Prop :=
  ∀ a ∈ slots, ∀ b ∈ slots, ∀ c, a.2.linear c ≠ 0 → b.2.linear c ≠ 0 → a = b

variable {slots : Slots} {slot : Key × Expr} {c : Key}

theorem exists_mem_linear_ne_zero (h : slots.linear c ≠ 0) :
    ∃ slot ∈ slots, slot.2.linear c ≠ 0 := by
  induction slots with
  | nil => simp at h
  | cons first rest ih =>
      by_cases hfirst : first.2.linear c = 0
      · rw [linear_cons, Finsupp.add_apply, hfirst, zero_add] at h
        obtain ⟨slot, hslot, hne⟩ := ih h
        exact ⟨slot, List.mem_cons_of_mem _ hslot, hne⟩
      · exact ⟨first, List.mem_cons_self, hfirst⟩

theorem Separate.linear_eq (h : slots.Separate) (hslots : Distinct slots) (hslot : slot ∈ slots)
    (hne : slot.2.linear c ≠ 0) : slots.linear c = slot.2.linear c := by
  have hsplit : slots.linear = slot.2.linear + (erase slot.1 slots).linear :=
    linear_erase hslots hslot
  have hrest : (erase slot.1 slots).linear c = 0 := by
    by_contra hrest
    obtain ⟨other, hother, hotherne⟩ := exists_mem_linear_ne_zero hrest
    obtain ⟨hmem, hkey⟩ := mem_erase.mp hother
    exact hkey (congrArg Prod.fst (h other hmem slot hslot c hotherne hne))
  rw [hsplit, Finsupp.add_apply, hrest, add_zero]

end Slots

namespace Canonical

open ExactAlgebra.Expr

variable {rules : Discipline} {a b node : Expr} {slot slot' slot'' : Key × Expr} {c d : Key}

theorem content_of_linear_ne_zero (hsum : node.isExpandedSum = false) (h : node.linear c ≠ 0) :
    node.content = c := by
  rw [linear_of_not_isExpandedSum hsum] at h
  by_contra hne
  exact h (Finsupp.single_eq_of_ne (Ne.symm hne))

/-- Coefficients belong to terms. -/
theorem exists_canonical_of_linear_ne_zero (h : Canonical rules node) (hne : node.linear c ≠ 0) :
    ∃ term, Canonical rules term ∧ term.isExpandedSum = false ∧ term.content = c := by
  induction node using slots_induction with
  | step node ih =>
      cases hsum : node.isExpandedSum with
      | false => exact ⟨node, h, hsum, content_of_linear_ne_zero hsum hne⟩
      | true =>
          rw [linear_of_isExpandedSum hsum] at hne
          obtain ⟨slot, hslot, hslotne⟩ := Slots.exists_mem_linear_ne_zero hne
          exact ih slot hslot (h.slots slot hslot) hslotne

/-- The contents in an expression that may stand in a composite go to its slot. -/
theorem exists_term_of_linear_ne_zero (h : Canonical rules node) (hflat : node.IsFlat)
    (hne : node.linear c ≠ 0) : ∃ term : Expr, term.isExpandedSum = false ∧ term.content = c ∧
      term.additiveKey = node.additiveKey := by
  cases hsum : node.isExpandedSum with
  | false => exact ⟨node, hsum, content_of_linear_ne_zero hsum hne, rfl⟩
  | true =>
      obtain ⟨terms, rfl, hslots, -⟩ := h.polynomial_of_isFlat hsum hflat
      rw [linear_polynomial] at hne
      obtain ⟨slot, hslot, hslotne⟩ := Slots.exists_mem_linear_ne_zero hne
      have hterm := not_isExpandedSum_of_isPowered (hslots.powered slot hslot)
      exact ⟨slot.2, hterm, content_of_linear_ne_zero hterm hslotne,
        (Reduce.additiveKey_polynomial hslots hslot 1).symm⟩

theorem additiveKey_eq_of_linear (ha : Canonical rules a) (hb : Canonical rules b)
    (haflat : a.IsFlat) (hbflat : b.IsFlat) (hac : a.linear c ≠ 0) (hbc : b.linear c ≠ 0) :
    a.additiveKey = b.additiveKey := by
  obtain ⟨term, hterm, hcontent, hkey⟩ := ha.exists_term_of_linear_ne_zero haflat hac
  obtain ⟨term', hterm', hcontent', hkey'⟩ := hb.exists_term_of_linear_ne_zero hbflat hbc
  rw [← hkey, ← hkey', Expr.additiveKey_eq_of_content hterm (hcontent.trans hcontent'.symm)]

theorem distinct_slots (h : Canonical rules node) : Slots.Distinct node.slots := by
  cases h with
  | polynomial _ _ hslots => exact hslots.distinct
  | product _ hslots => exact hslots.distinct
  | composite _ _ hslots => exact hslots.distinct
  | _ => exact Slots.distinct_nil

theorem eq_of_key_eq (h : Canonical rules node) (hslot : slot ∈ node.slots)
    (hslot' : slot' ∈ node.slots) (hkey : slot.1 = slot'.1) : slot = slot' :=
  List.inj_on_of_nodup_map h.distinct_slots hslot hslot' hkey

theorem composite_of_not_isFlat (h : Canonical rules node) (hflat : ¬ node.IsFlat) :
    ∃ terms, node = .composite 1 1 terms ∧ IsComposite rules terms ∧
      ∀ slot ∈ terms, Canonical rules slot.2 := by
  obtain ⟨hgroup, hpower⟩ := not_not.mp hflat
  cases h <;> simp only [group, reduceCtorEq] at hgroup
  case composite coeff power terms hshape _ hslots hterms =>
    obtain rfl : power = 1 := hpower
    obtain rfl := hshape.coeff_eq_one rfl
    exact ⟨terms, rfl, hslots, hterms⟩

theorem eq_of_linear_composite (h : Canonical rules node) (hflat : ¬ node.IsFlat)
    (hslot : slot ∈ node.slots) (hslot' : slot' ∈ node.slots)
    (hkey : slot.2.additiveKey = slot'.2.additiveKey) : slot = slot' := by
  obtain ⟨terms, rfl, hslots, -⟩ := h.composite_of_not_isFlat hflat
  refine h.eq_of_key_eq hslot hslot' ?_
  rw [hslots.key slot hslot, hslots.key slot' hslot', hkey]

theorem isFlat_of_mem (h : Canonical rules node) (hflat : ¬ node.IsFlat)
    (hslot : slot ∈ node.slots) : slot.2.IsFlat := by
  obtain ⟨terms, rfl, hslots, -⟩ := h.composite_of_not_isFlat hflat
  exact hslots.flat slot hslot

/-- The children of a polynomial are terms. -/
theorem not_isExpandedSum_of_mem (h : Canonical rules node) (hflat : node.IsFlat)
    (hsum : node.isExpandedSum = true) (hslot : slot ∈ node.slots) :
    slot.2.isExpandedSum = false := by
  obtain ⟨terms, rfl, hslots, -⟩ := h.polynomial_of_isFlat hsum hflat
  exact not_isExpandedSum_of_isPowered (hslots.powered slot hslot)

theorem separate (h : Canonical rules node) (hsum : node.isExpandedSum = true) :
    node.slots.Separate := by
  intro slot hslot slot' hslot' c hc hc'
  by_cases hflat : node.IsFlat
  · have hcontent := content_of_linear_ne_zero (h.not_isExpandedSum_of_mem hflat hsum hslot) hc
    have hcontent' := content_of_linear_ne_zero (h.not_isExpandedSum_of_mem hflat hsum hslot') hc'
    have hpower := degreePower_eq_of_content (hcontent.trans hcontent'.symm)
    obtain ⟨terms, rfl, hslots, -⟩ := h.polynomial_of_isFlat hsum hflat
    refine h.eq_of_key_eq hslot hslot' ?_
    rw [hslots.key slot hslot, hslots.key slot' hslot',
      key_exponent_of_isPowered (hslots.powered slot hslot),
      key_exponent_of_isPowered (hslots.powered slot' hslot'), hpower]
  · exact h.eq_of_linear_composite hflat hslot hslot' (additiveKey_eq_of_linear
      (h.slots slot hslot) (h.slots slot' hslot') (h.isFlat_of_mem hflat hslot)
      (h.isFlat_of_mem hflat hslot') hc hc')

theorem linear_eq_of_mem (h : Canonical rules node) (hsum : node.isExpandedSum = true)
    (hslot : slot ∈ node.slots) (hc : slot.2.linear c ≠ 0) : node.linear c = slot.2.linear c := by
  rw [linear_of_isExpandedSum hsum]
  exact (h.separate hsum).linear_eq h.distinct_slots hslot hc

theorem two_le_slots (h : Canonical rules node) (hsum : node.isExpandedSum = true) :
    2 ≤ node.slots.length := by
  cases h <;> simp [isExpandedSum, isSum] at hsum
  case polynomial hslots _ => exact hslots.two_le
  case composite hslots _ => exact hslots.two_le

theorem exists_mem_mem_ne (h : Canonical rules node) (hsum : node.isExpandedSum = true) :
    ∃ slot ∈ node.slots, ∃ slot' ∈ node.slots, slot ≠ slot' := by
  have htwo := h.two_le_slots hsum
  have hnodup := h.distinct_slots.nodup
  match hslots : node.slots with
  | [] | [_] => simp [hslots] at htwo
  | slot :: slot' :: rest =>
      rw [hslots, List.nodup_cons, List.mem_cons, not_or] at hnodup
      exact ⟨slot, List.mem_cons_self, slot', by simp, hnodup.1.1⟩

section

variable (hconstant : ∀ value, rules.constant value → value ≠ 0)

include hconstant

theorem isZero_of_mem (h : Canonical rules node) (hsum : node.isExpandedSum = true)
    (hslot : slot ∈ node.slots) : slot.2.isZero = false := by
  by_contra hzero
  obtain ⟨v, hv⟩ : ∃ v, slot.2 = .number v := by
    cases hnode : slot.2 <;> simp_all [isZero]
  have hvzero : v = 0 := by simpa [hv, isZero] using hzero
  by_cases hflat : node.IsFlat
  · obtain ⟨terms, rfl, hslots, -⟩ := h.polynomial_of_isFlat hsum hflat
    have hpowered := hslots.powered slot hslot
    rw [hv] at hpowered
    cases hpowered
  · obtain ⟨terms, rfl, hslots, -⟩ := h.composite_of_not_isFlat hflat
    exact hconstant v (hslots.constant slot hslot v hv) hvzero

theorem exists_linear_ne_zero (h : Canonical rules node) (hzero : node.isZero = false) :
    ∃ c, node.linear c ≠ 0 := by
  induction node using slots_induction with
  | step node ih =>
      cases hsum : node.isExpandedSum with
      | false =>
          refine ⟨node.content, ?_⟩
          rw [linear_of_not_isExpandedSum hsum, Finsupp.single_eq_same]
          cases hnumber : node.isNumber with
          | false => exact h.coeff_ne_zero hnumber
          | true => cases node <;> simp_all [isNumber, isZero, coeff]
      | true =>
          obtain ⟨slot, hslot, -⟩ := h.exists_mem_mem_ne hsum
          obtain ⟨c, hc⟩ :=
            ih slot hslot (h.slots slot hslot) (h.isZero_of_mem hconstant hsum hslot)
          exact ⟨c, by rwa [h.linear_eq_of_mem hsum hslot hc]⟩

/-- A sum is told from a term by its coefficients. -/
theorem isExpandedSum_of_linear (ha : Canonical rules a) (h : a.linear = b.linear)
    (hsum : a.isExpandedSum = true) : b.isExpandedSum = true := by
  by_contra hbsum
  rw [Bool.not_eq_true] at hbsum
  obtain ⟨slot, hslot, slot', hslot', hne⟩ := ha.exists_mem_mem_ne hsum
  obtain ⟨c, hc⟩ := (ha.slots slot hslot).exists_linear_ne_zero hconstant
    (ha.isZero_of_mem hconstant hsum hslot)
  obtain ⟨d, hd⟩ := (ha.slots slot' hslot').exists_linear_ne_zero hconstant
    (ha.isZero_of_mem hconstant hsum hslot')
  have hbc : b.linear c ≠ 0 := by rwa [← h, ha.linear_eq_of_mem hsum hslot hc]
  have hbd : b.linear d ≠ 0 := by rwa [← h, ha.linear_eq_of_mem hsum hslot' hd]
  rw [← content_of_linear_ne_zero hbsum hbc] at hc
  rw [← content_of_linear_ne_zero hbsum hbd] at hd
  exact hne (ha.separate hsum slot hslot slot' hslot' b.content hc hd)

/-- A sum of powers of one base is told from other sums by its coefficients. -/
theorem isFlat_of_linear (ha : Canonical rules a) (hb : Canonical rules b)
    (h : a.linear = b.linear) (hflat : a.IsFlat) : b.IsFlat := by
  by_contra hbflat
  have hsum : b.isExpandedSum = true := by
    obtain ⟨terms, rfl, -⟩ := hb.composite_of_not_isFlat hbflat
    rfl
  obtain ⟨slot, hslot, slot', hslot', hne⟩ := hb.exists_mem_mem_ne hsum
  obtain ⟨c, hc⟩ := (hb.slots slot hslot).exists_linear_ne_zero hconstant
    (hb.isZero_of_mem hconstant hsum hslot)
  obtain ⟨d, hd⟩ := (hb.slots slot' hslot').exists_linear_ne_zero hconstant
    (hb.isZero_of_mem hconstant hsum hslot')
  have hac : a.linear c ≠ 0 := by rwa [h, hb.linear_eq_of_mem hsum hslot hc]
  have had : a.linear d ≠ 0 := by rwa [h, hb.linear_eq_of_mem hsum hslot' hd]
  refine hne (hb.eq_of_linear_composite hbflat hslot hslot' ?_)
  rw [← ha.additiveKey_eq_of_linear (hb.slots slot hslot) hflat (hb.isFlat_of_mem hbflat hslot)
    hac hc, ha.additiveKey_eq_of_linear (hb.slots slot' hslot') hflat
    (hb.isFlat_of_mem hbflat hslot') had hd]

end

/-- Contents in one slot of a sum are in one slot of every sum with these coefficients. -/
theorem eq_of_mem_slot (ha : Canonical rules a) (hb : Canonical rules b)
    (hasum : a.isExpandedSum = true) (hbsum : b.isExpandedSum = true)
    (hflat : a.IsFlat ↔ b.IsFlat) (hslot : slot ∈ a.slots) (hslot' : slot' ∈ b.slots)
    (hslot'' : slot'' ∈ b.slots) (hc : slot.2.linear c ≠ 0) (hc' : slot'.2.linear c ≠ 0)
    (hd : slot.2.linear d ≠ 0) (hd' : slot''.2.linear d ≠ 0) : slot' = slot'' := by
  by_cases haflat : a.IsFlat
  · have hterm := ha.not_isExpandedSum_of_mem haflat hasum hslot
    rw [← content_of_linear_ne_zero hterm hc] at hc'
    rw [← content_of_linear_ne_zero hterm hd] at hd'
    exact hb.separate hbsum slot' hslot' slot'' hslot'' _ hc' hd'
  · have hbflat := mt hflat.mpr haflat
    have hkey := fun (other : Key × Expr) (hother : other ∈ b.slots) (k : Key)
        (hk : slot.2.linear k ≠ 0) (hk' : other.2.linear k ≠ 0) =>
      (hb.slots other hother).additiveKey_eq_of_linear (ha.slots slot hslot)
        (hb.isFlat_of_mem hbflat hother) (ha.isFlat_of_mem haflat hslot) hk' hk
    exact hb.eq_of_linear_composite hbflat hslot' hslot''
      ((hkey slot' hslot' c hc hc').trans (hkey slot'' hslot'' d hd hd').symm)

/-- A child with a shared content has all coefficients of the other child. -/
theorem linear_eq_of_shared (ha : Canonical rules a) (hb : Canonical rules b)
    (hasum : a.isExpandedSum = true) (hbsum : b.isExpandedSum = true)
    (hflat : a.IsFlat ↔ b.IsFlat) (h : a.linear = b.linear) (hslot : slot ∈ a.slots)
    (hslot' : slot' ∈ b.slots) (hc : slot.2.linear c ≠ 0) (hc' : slot'.2.linear c ≠ 0)
    (hd : slot.2.linear d ≠ 0) : slot'.2.linear d = slot.2.linear d := by
  have had := ha.linear_eq_of_mem hasum hslot hd
  have hbd : b.slots.linear d ≠ 0 := by
    rwa [← linear_of_isExpandedSum hbsum, ← h, had]
  obtain ⟨slot'', hslot'', hd'⟩ := Slots.exists_mem_linear_ne_zero hbd
  obtain rfl := ha.eq_of_mem_slot hb hasum hbsum hflat hslot hslot' hslot'' hc hc' hd hd'
  rw [← had, h, hb.linear_eq_of_mem hbsum hslot' hd']

/-- Two sums with the same coefficients have children with the same coefficients. -/
theorem exists_slot_linear_eq (hconstant : ∀ value, rules.constant value → value ≠ 0)
    (ha : Canonical rules a) (hb : Canonical rules b) (hasum : a.isExpandedSum = true)
    (hbsum : b.isExpandedSum = true) (hflat : a.IsFlat ↔ b.IsFlat) (h : a.linear = b.linear)
    (hslot : slot ∈ a.slots) : ∃ slot' ∈ b.slots, slot.2.linear = slot'.2.linear := by
  obtain ⟨c, hc⟩ := (ha.slots slot hslot).exists_linear_ne_zero hconstant
    (ha.isZero_of_mem hconstant hasum hslot)
  have hbc : b.slots.linear c ≠ 0 := by
    rwa [← linear_of_isExpandedSum hbsum, ← h, ha.linear_eq_of_mem hasum hslot hc]
  obtain ⟨slot', hslot', hc'⟩ := Slots.exists_mem_linear_ne_zero hbc
  refine ⟨slot', hslot', Finsupp.ext fun d => ?_⟩
  by_cases hd : slot.2.linear d = 0
  · by_contra hne
    rw [hd] at hne
    exact hne (hb.linear_eq_of_shared ha hbsum hasum hflat.symm h.symm hslot' hslot hc' hc
      (Ne.symm hne) ▸ hd.symm)
  · exact (ha.linear_eq_of_shared hb hasum hbsum hflat h hslot hslot' hc hc' hd).symm

theorem content_of_coeff_eq_zero (h : Canonical rules node) (hcoeff : node.coeff = 0) :
    node.content = constantMark := by
  cases hnumber : node.isNumber with
  | false => exact absurd hcoeff (h.coeff_ne_zero hnumber)
  | true => cases node <;> simp_all [isNumber, content]

theorem signature_eq_of_linear_term (ha : Canonical rules a) (hb : Canonical rules b)
    (hasum : a.isExpandedSum = false) (hbsum : b.isExpandedSum = false)
    (h : a.linear = b.linear) : a.signature = b.signature := by
  rw [linear_of_not_isExpandedSum hasum, linear_of_not_isExpandedSum hbsum,
    Finsupp.single_eq_single_iff] at h
  rw [signature_eq, signature_eq]
  rcases h with ⟨hcontent, hcoeff⟩ | ⟨hazero, hbzero⟩
  · rw [hcontent, hcoeff]
  · rw [ha.content_of_coeff_eq_zero hazero, hb.content_of_coeff_eq_zero hbzero, hazero, hbzero]

theorem signature_eq_of_signatures (ha : Canonical rules a) (hb : Canonical rules b)
    (hasum : a.isExpandedSum = true) (hbsum : b.isExpandedSum = true)
    (hflat : a.IsFlat ↔ b.IsFlat)
    (h : ∀ key, key ∈ a.slots.signatures ↔ key ∈ b.slots.signatures) :
    a.signature = b.signature := by
  have hset : Key.setOf (slotsSignatures a.slots) = Key.setOf (slotsSignatures b.slots) := by
    rwa [Slots.slotsSignatures_eq, Slots.slotsSignatures_eq, Key.setOf_eq_setOf_iff]
  by_cases haflat : a.IsFlat
  · obtain ⟨terms, rfl, -⟩ := ha.polynomial_of_isFlat hasum haflat
    obtain ⟨terms', rfl, -⟩ := hb.polynomial_of_isFlat hbsum (hflat.mp haflat)
    simp only [Expr.slots] at hset
    simp only [signature, content, Expr.coeff, hset]
  · obtain ⟨terms, rfl, -⟩ := ha.composite_of_not_isFlat haflat
    obtain ⟨terms', rfl, -⟩ := hb.composite_of_not_isFlat (mt hflat.mpr haflat)
    simp only [Expr.slots] at hset
    simp only [signature, content, Expr.coeff, hset]

/-- Canonical expressions with the same coefficients are equal but for the order of their
children. -/
theorem signature_eq_of_linear (hconstant : ∀ value, rules.constant value → value ≠ 0)
    (ha : Canonical rules a) (hb : Canonical rules b) (h : a.linear = b.linear) :
    a.signature = b.signature := by
  induction a using slots_induction generalizing b with
  | step a ih =>
      cases hasum : a.isExpandedSum with
      | false =>
          refine ha.signature_eq_of_linear_term hb hasum ?_ h
          by_contra hbsum
          rw [Bool.not_eq_false] at hbsum
          simp [hb.isExpandedSum_of_linear hconstant h.symm hbsum] at hasum
      | true =>
          have hbsum := ha.isExpandedSum_of_linear hconstant h hasum
          have hflat : a.IsFlat ↔ b.IsFlat :=
            ⟨ha.isFlat_of_linear hconstant hb h, hb.isFlat_of_linear hconstant ha h.symm⟩
          have hsubset : ∀ key ∈ a.slots.signatures, key ∈ b.slots.signatures := by
            refine List.forall_mem_map.mpr fun slot hslot => ?_
            obtain ⟨slot', hslot', hlinear⟩ :=
              ha.exists_slot_linear_eq hconstant hb hasum hbsum hflat h hslot
            rw [ih slot hslot (ha.slots slot hslot) (hb.slots slot' hslot') hlinear]
            exact List.mem_map_of_mem (f := fun slot => slot.2.signature) hslot'
          have hsuperset : ∀ key ∈ b.slots.signatures, key ∈ a.slots.signatures := by
            refine List.forall_mem_map.mpr fun slot hslot => ?_
            obtain ⟨slot', hslot', hlinear⟩ :=
              hb.exists_slot_linear_eq hconstant ha hbsum hasum hflat.symm h.symm hslot
            rw [← ih slot' hslot' (ha.slots slot' hslot') (hb.slots slot hslot) hlinear.symm]
            exact List.mem_map_of_mem (f := fun slot => slot.2.signature) hslot'
          exact ha.signature_eq_of_signatures hb hasum hbsum hflat fun key =>
            ⟨hsubset key, hsuperset key⟩

end Canonical

end ExactAlgebra
