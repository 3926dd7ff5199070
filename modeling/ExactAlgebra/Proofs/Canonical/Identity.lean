import ExactAlgebra.Proofs.Canonical.Factors
import ExactAlgebra.Proofs.Canonical.Coefficient

/-!
# Identities of products and powers

Products and powers of which the parts have the same identities have the same identity.
The constant term of a sum is its coefficient at the content of constants, and the bases
of exponentials are no perfect powers.
-/

namespace ExactAlgebra

open ExactAlgebra.Expr Reduce

variable {rules rules' : Discipline} {a b node factor factor' : Expr} {c : Rat}
  {slots slots' : Slots}

theorem Expr.exists_eq_number (h : node.isNumber = true) : ∃ value, node = .number value := by
  cases node with
  | number value => exact ⟨value, rfl⟩
  | _ => cases h

theorem Expr.isNumber_of_content (h : node.content = constantMark) : node.isNumber = true := by
  by_contra hnumber
  exact Arithmetic.content_ne_constantMark (Bool.not_eq_true _ ▸ hnumber) h

/-! ## Products and powers -/

theorem signature_exponential {base base' exponent exponent' : Expr}
    (hbase : base.signature = base'.signature)
    (hexponent : exponent.signature = exponent'.signature) :
    (Expr.exponential 1 base exponent).signature =
      (Expr.exponential 1 base' exponent').signature := by
  rw [signature, signature, content, content]
  rw [signature, signature] at hbase hexponent
  rw [hbase, hexponent]
  rfl

theorem signature_product (h : slots.signatures.Perm slots'.signatures) :
    (Expr.product c 1 slots).signature = (Expr.product c 1 slots').signature := by
  have hset : Key.setOf (slotsSignatures slots) = Key.setOf (slotsSignatures slots') := by
    rw [Slots.slotsSignatures_eq, Slots.slotsSignatures_eq, Key.setOf_eq_setOf_iff]
    exact fun key => h.mem_iff
  rw [signature, signature, content, content, hset]
  rfl

theorem signature_collapse (hperm : slots.Perm slots') :
    (collapse (.product c 1 slots)).signature = (collapse (.product c 1 slots')).signature := by
  match slots with
  | [] => rw [hperm.symm.eq_nil]
  | [slot] => rw [List.singleton_perm.mp hperm]
  | first :: second :: rest =>
      have htwo : 2 ≤ slots'.length := by
        rw [← hperm.length_eq]
        simp
      rw [collapse_two_le (by simp), collapse_two_le htwo]
      exact signature_product (hperm.map _)

theorem signature_withCoeff (h : factor.signature = factor'.signature) :
    (factor.withCoeff c).signature = (factor'.withCoeff c).signature := by
  cases hnumber : factor.isNumber with
  | true =>
      have hnumber' : factor'.isNumber = true := by
        rwa [← isNumber_eq_of_content (content_eq_of_signature h)]
      cases factor <;> cases factor' <;> simp_all [isNumber, withCoeff]
  | false =>
      have hnumber' : factor'.isNumber = false := by
        rwa [← isNumber_eq_of_content (content_eq_of_signature h)]
      rw [signature, signature, content_withCoeff, content_withCoeff, coeff_withCoeff,
        coeff_withCoeff, content_eq_of_signature h]

/-- Products of factors with the same identities. -/
theorem signature_collapse_of_signatures (hc : c ≠ 0) (h : IsProductPart rules slots)
    (h' : IsProductPart rules' slots') (hperm : slots.signatures.Perm slots'.signatures) :
    (collapse (.product c 1 slots)).signature = (collapse (.product c 1 slots')).signature := by
  have hlength : slots.length = slots'.length := by
    simpa [Slots.signatures] using hperm.length_eq
  rcases slots with _ | ⟨slot, _ | ⟨second, rest⟩⟩
  · obtain rfl := List.eq_nil_of_length_eq_zero hlength.symm
    rfl
  · obtain ⟨slot', rfl⟩ := List.length_eq_one_iff.mp hlength.symm
    have hsame : slot.2.signature = slot'.2.signature := by
      simpa [Slots.signatures] using hperm
    rw [collapse, collapse, scale_factor hc (h.coeff _ List.mem_cons_self)
        (h.factor _ List.mem_cons_self), scale_factor hc (h'.coeff _ List.mem_cons_self)
        (h'.factor _ List.mem_cons_self)]
    exact signature_withCoeff hsame
  · rw [collapse_two_le (by simp), collapse_two_le (by simp [← hlength])]
    exact signature_product hperm

/-! ## Constant terms -/

theorem isNumber_of_additiveKey (h : Canonical rules node)
    (hkey : node.additiveKey = constantMark) : node.isNumber = true := by
  cases h with
  | number => rfl
  | @polynomial coeff power terms _ _ hslots _ =>
      by_cases hpower : power = 1
      · subst hpower
        obtain ⟨slot, hslot⟩ := List.exists_mem_of_length_pos
          (Nat.lt_of_lt_of_le Nat.zero_lt_two hslots.two_le)
        rw [additiveKey_polynomial hslots hslot,
          additiveKey_of_isPowered (hslots.powered slot hslot),
          baseKey_of_isPowered (hslots.powered slot hslot)] at hkey
        simp [constantMark] at hkey
      · simp [additiveKey, hpower, baseKey, constantMark] at hkey
  | @composite coeff power terms =>
      by_cases hpower : power = 1 <;>
        simp [additiveKey, hpower, baseKey, content, constantMark, Key.tuple] at hkey
  | _ => simp [additiveKey, baseKey, content, constantMark, Key.tuple] at hkey

theorem linear_constantMark_of_isFlat (h : Canonical rules node) (hflat : node.IsFlat)
    (hnumber : node.isNumber = false) : node.linear constantMark = 0 := by
  by_contra hne
  obtain ⟨term, hterm, hcontent, hkey⟩ := h.exists_term_of_linear_ne_zero hflat hne
  obtain ⟨value, rfl⟩ := exists_eq_number (isNumber_of_content hcontent)
  rw [isNumber_of_additiveKey h hkey.symm] at hnumber
  cases hnumber

theorem linear_constantMark_of_keys {terms part : Slots} (hslots : IsComposite rules terms)
    (hterms : ∀ slot ∈ terms, Canonical rules slot.2) (hpart : part ⊆ terms)
    (hkey : ∀ slot ∈ part, slot.1 ≠ constantMark) : part.linear constantMark = 0 := by
  by_contra hne
  obtain ⟨slot, hslot, hslotne⟩ := Slots.exists_mem_linear_ne_zero hne
  have hmem := hpart hslot
  refine hslotne (linear_constantMark_of_isFlat (hterms slot hmem) (hslots.flat slot hmem) ?_)
  by_contra hnumber
  obtain ⟨value, hvalue⟩ := exists_eq_number (Bool.not_eq_false _ ▸ hnumber)
  refine hkey slot hslot ?_
  rw [hslots.key slot hmem, hvalue]
  rfl

/-- The constant term of an expression that is no constant. -/
theorem constantTerm_eq_linear (h : Canonical rules node) (hnumber : node.isNumber = false) :
    constantTerm node = node.linear constantMark := by
  by_cases hflat : node.IsFlat
  · rw [linear_constantMark_of_isFlat h hflat hnumber]
    cases node with
    | composite coeff power terms =>
        refine if_neg fun hpower => hflat ⟨rfl, hpower⟩
    | _ => rfl
  · obtain ⟨terms, rfl, hslots, hterms⟩ := h.composite_of_not_isFlat hflat
    rw [linear_composite, constantTerm, if_pos rfl]
    cases hfind : Slots.find? constantMark terms with
    | none =>
        exact (linear_constantMark_of_keys hslots hterms (List.Subset.refl _)
          (Slots.find?_eq_none_iff.mp hfind)).symm
    | some child =>
        have hmem := Slots.mem_of_find? hfind
        have hchild := isNumber_of_additiveKey (hterms _ hmem) (hslots.key _ hmem).symm
        have hrest : (Slots.erase constantMark terms).linear constantMark = 0 :=
          linear_constantMark_of_keys hslots hterms (Slots.erase_sublist _ _).subset
            fun slot hslot => (Slots.mem_erase.mp hslot).2
        obtain ⟨value, rfl⟩ := exists_eq_number hchild
        rw [Slots.linear_erase hslots.distinct hmem, Finsupp.add_apply, hrest, linear_number,
          Finsupp.single_eq_same, add_zero]
        rfl

/-- Whether a sum has a constant term is told by its identity. -/
theorem constantTerm_eq_zero (ha : Canonical rules a) (hb : Canonical rules b)
    (hsame : a.signature = b.signature) (hzero : constantTerm a = 0) : constantTerm b = 0 := by
  have hnumbers := isNumber_eq_of_content (content_eq_of_signature hsame)
  cases hnumber : b.isNumber with
  | true =>
      obtain ⟨value, rfl⟩ := exists_eq_number hnumber
      rfl
  | false =>
      rw [constantTerm_eq_linear hb hnumber, ← ha.linear_eq_of_signature hb hsame,
        ← constantTerm_eq_linear ha (hnumbers.trans hnumber), hzero]

/-! ## Reduced bases -/

/-- A base of exponentials that is no perfect power. -/
def IsReduced (base : Rat) : Prop := ∀ exponent, reduceBase base exponent = (base, exponent)

/-- A base is a power of a reduced base, and the exponents of the two differ by a factor. -/
theorem exists_reduceBase (base : Rat) : ∃ (root : Rat) (degree : Nat), degree ≠ 0 ∧
    root ^ degree = base ∧ (root = base ∨ 1 < root) ∧ IsReduced root ∧
    ∀ exponent, reduceBase base exponent = (root, scale degree exponent) := by
  have hself (h : IsReduced base) : ∃ (root : Rat) (degree : Nat), degree ≠ 0 ∧
      root ^ degree = base ∧ (root = base ∨ 1 < root) ∧ IsReduced root ∧
      ∀ exponent, reduceBase base exponent = (root, scale degree exponent) :=
    ⟨base, 1, one_ne_zero, pow_one base, .inl rfl, h, fun exponent => by
      rw [h exponent, Nat.cast_one, scale_one]⟩
  by_cases hinteger : (Ratio.isInteger base && decide (1 < base)) = true
  · obtain ⟨hint, hlt⟩ := Bool.and_eq_true_iff.mp hinteger
    obtain ⟨n, rfl⟩ : ∃ n : Nat, base = n := by
      have hnum : (base.num : Rat) = base := (Rat.den_eq_one_iff base).mp (by
        simpa [Ratio.isInteger] using hint)
      have hpos : 0 < base := one_pos.trans (of_decide_eq_true hlt)
      refine ⟨base.num.toNat, ?_⟩
      rw [← hnum]
      exact_mod_cast (Int.toNat_of_nonneg (Rat.num_pos.mpr hpos).le).symm
    have hone : 1 < n := by exact_mod_cast of_decide_eq_true hlt
    by_cases hdegree : 1 < (Root.perfectPower n).2
    · have hroot : 1 < (Root.perfectPower n).1 := Root.one_lt_perfectPower_fst hone
      refine ⟨(Root.perfectPower n).1, (Root.perfectPower n).2, by omega, ?_, .inr ?_,
        fun exponent => ?_, fun exponent => ?_⟩
      · exact_mod_cast Root.perfectPower_pow n
      · exact_mod_cast hroot
      · simp [reduceBase, Root.perfectPower_perfectPower hone]
      · simp only [reduceBase, hinteger, if_true]
        simp [hdegree]
    · refine hself fun exponent => ?_
      simp only [reduceBase, hinteger, if_true]
      simp [hdegree]
  · exact hself fun exponent => by rw [reduceBase, if_neg hinteger]

theorem isReduced_reduceBase (base : Rat) (exponent : Expr) :
    IsReduced (reduceBase base exponent).1 := by
  obtain ⟨root, degree, -, -, -, hreduced, hreduce⟩ := exists_reduceBase base
  rw [hreduce]
  exact hreduced

end ExactAlgebra
