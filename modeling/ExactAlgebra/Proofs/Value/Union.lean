import ExactAlgebra.Proofs.Canonical.PowerProduct
import ExactAlgebra.Proofs.Value.Insertion

/-!
# Factors that unite

Factors in one slot of a product are powers of one base.  Powers of a call, or of a variable
other than the imaginary unit, unite in one factor whatever their exponents are.
-/

namespace ExactAlgebra

open ExactAlgebra.Expr Reduce

/-! ## Bases -/

namespace Expr

variable {a b node : Expr}

theorem signature_baseOf_of_isPowered (h : node.isPowered = true) :
    node.baseOf.signature = node.baseKey := by
  cases node <;>
    simp_all [isPowered, isAtomSum, isSum, baseOf, signature, baseKey, withCoeff, withPower, coeff,
      content]

/-- A negative power of a sum has no slot in common with other factors. -/
theorem multiplicativeKey_ne_signature (hsum : a.isAtomSum = true) (hneg : a.degreePower < 0)
    (b : Expr) : a.multiplicativeKey ≠ b.signature := by
  have hkey : a.multiplicativeKey = .append (.rational (-1)) a.baseKey := by
    rw [multiplicativeKey, if_pos]
    simp [hsum, hneg]
  rw [hkey]
  cases a <;> simp only [isAtomSum, isSum, Bool.false_and, Bool.false_eq_true] at hsum <;>
    cases b <;>
    simp [baseKey, withPower, signature, content, constantMark, Key.append, Key.tuple]

end Expr

namespace Reduce

variable {A : Type*} [CommRing A] [Algebra Rat A] {V : FormalReading A} {mode : Mode} {fuel : Nat}
  {a b base sum old factor : Expr}

theorem multiplicativeKey_exponential (c : Rat) (base exponent : Expr) :
    (Expr.exponential c base exponent).multiplicativeKey =
      if base.isNumber then .cons (.group .exponential) base.signature else base.signature := by
  rw [multiplicativeKey, ← baseKey_exponential c base exponent]
  rfl

/-- Factors in one slot have one base. -/
theorem IsLoose.signature_baseOf (ha : IsLoose V a) (hb : IsLoose V b)
    (h : a.multiplicativeKey = b.multiplicativeKey) :
    a.baseOf.signature = b.baseOf.signature := by
  have hmixed : ∀ {a : Expr} {c : Rat} {base exponent : Expr}, a.isPowered = true →
      a.multiplicativeKey = (Expr.exponential c base exponent).multiplicativeKey →
      a.baseOf.signature = base.signature := by
    intro a c base exponent hpowered hkey
    rw [multiplicativeKey_exponential] at hkey
    split_ifs at hkey
    · obtain ⟨key, hkey'⟩ := Canonical.multiplicativeKey_of_isPowered hpowered
      exact absurd (hkey'.symm.trans hkey) (by simp)
    · by_cases hneg : (a.isAtomSum && decide (a.degreePower < 0)) = true
      · rw [Bool.and_eq_true, decide_eq_true_iff] at hneg
        exact absurd hkey (multiplicativeKey_ne_signature hneg.1 hneg.2 base)
      · rw [multiplicativeKey, if_neg hneg] at hkey
        rw [signature_baseOf_of_isPowered hpowered, hkey]
  cases ha.canonical.isKind ha.isFactor with
  | radical => exact absurd rfl ha.group
  | powered hpowered =>
      cases hb.canonical.isKind hb.isFactor with
      | radical => exact absurd rfl hb.group
      | powered hpowered' =>
          rw [signature_baseOf_of_isPowered hpowered, signature_baseOf_of_isPowered hpowered',
            baseKey_eq_of_multiplicativeKey hpowered hpowered' h]
      | exponential => exact hmixed hpowered h
  | @exponential c base e =>
      cases hb.canonical.isKind hb.isFactor with
      | radical => exact absurd rfl hb.group
      | powered hpowered' => exact (hmixed hpowered' h.symm).symm
      | @exponential c' base' e' =>
          rw [multiplicativeKey_exponential, multiplicativeKey_exponential] at h
          change base.signature = base'.signature
          split_ifs at h <;> simp_all [signature]

/-- No radical stands in the slot of another factor. -/
theorem IsLoose.of_multiplicativeKey (h : IsLoose V factor) (hold : Canonical V.rules old)
    (holdfactor : old.isFactor = true) (hcoeff : old.coeff = 1)
    (hkey : old.multiplicativeKey = factor.multiplicativeKey) : IsLoose V old := by
  refine ⟨hold, holdfactor, hcoeff, fun hgroup => h.group ?_⟩
  obtain ⟨root, rfl⟩ := eq_radicalOf hgroup hcoeff
  exact group_of_multiplicativeKey h.isFactor (hkey.symm.trans (multiplicativeKey_radicalOf root))

/-! ## Exponents -/

theorem exists_addExponents_of_isLoose (ha : IsLoose V a) (hb : IsLoose V b) :
    ∃ sum, addExponents a.exponent b.exponent = .ok (asExponent sum) ∧
      Canonical V.rules sum ∧ sum.linear = a.exponent.linear + b.exponent.linear := by
  have hadd := exists_addExponents V.hereditary.constant (canonical_asNode ha.canonical.exponent)
    (canonical_asNode hb.canonical.exponent)
  rwa [asExponent_asNode ha.canonical.exponent, asExponent_asNode hb.canonical.exponent] at hadd

/-- Factors unite if their base carries the sum of their exponents. -/
theorem unites_of_raiseBase (hold : IsLoose V old) (hfactor : IsLoose V factor)
    (h : ∀ fuel sum, Canonical V.rules sum →
      sum.linear = old.exponent.linear + factor.exponent.linear →
      ∃ node, raiseBase mode (fuel + 2) old.baseOf (asExponent sum) = .ok node ∧
        IsUnion V factor.multiplicativeKey sum.linear node) : Unites V mode old factor := by
  intro fuel
  obtain ⟨sum, hadd, hsum, hlinear⟩ := exists_addExponents_of_isLoose hold hfactor
  obtain ⟨node, hraise, hnode⟩ := h (fuel + 1) sum hsum hlinear
  refine ⟨node, ?_, hlinear ▸ hnode⟩
  rw [combinePowers.eq_def]
  simp only [hadd, bind, Except.bind, hraise, hold.coeff, hfactor.coeff, mul_one, scale_one]
  rfl

/-! ## Calls and variables -/

/-- A base of which all powers are single factors: a call, or a variable other than the
imaginary unit. -/
inductive IsAtom (mode : Mode) : Expr → Prop
  | named {name : String} (hname : name ≠ mode.imaginary) : IsAtom mode (.symbol 1 name 1)
  | call (name : String) (args : List Expr) : IsAtom mode (.call 1 name args 1)

theorem IsAtom.of_signature (h : IsAtom mode a) (hsame : a.signature = b.signature) :
    IsAtom mode b := by
  have hgroup := group_eq_of_content (content_eq_of_signature hsame)
  cases h <;> cases b <;> simp only [group, reduceCtorEq] at hgroup <;>
    simp only [signature, content, Key.tuple, Key.cons.injEq, Key.rational.injEq, Key.name.injEq,
      coeff, true_and, and_true] at hsame
  case named hname _ _ _ =>
    obtain ⟨rfl, rfl, rfl⟩ := hsame
    exact .named hname
  case call coeff name args power =>
    obtain ⟨rfl, -, -, rfl⟩ := hsame
    exact .call name args

theorem IsAtom.isPlain (h : IsAtom mode base) : base.isPlain = true := by
  cases h <;> rfl

theorem IsAtom.carries (h : IsAtom mode base) {p : Rat} (hp : p ≠ 0) : Carries mode base p := by
  refine ⟨hp, fun hnamed => ?_, fun hsum => ?_⟩
  · cases h <;> simp_all [isNamed]
  · cases h <;> cases hsum

/-- A reading of all powers of atoms. -/
structure ReadsAtoms (V : FormalReading A) (mode : Mode) : Prop where
  symbol : ∀ {name : String} {power : Rat}, name ≠ mode.imaginary → V.rules.symbol name power
  call : ∀ {name : String} {args : List Expr}, V.rules.call name args
  exponential : ∀ {base exponent : Expr}, IsAtom mode base → V.rules.exponential base exponent

theorem readsAtoms_exact (mode : Mode) : ReadsAtoms FormalReading.exact mode :=
  ⟨fun _ => trivial, trivial, fun _ => trivial⟩

theorem IsAtom.canonical_baseOf (h : IsAtom mode factor.baseOf) (hV : ReadsAtoms V mode)
    (hfactor : IsLoose V factor) : Canonical V.rules factor.baseOf := by
  have hcanonical := hfactor.canonical
  cases hcanonical with
  | symbol =>
      cases h with
      | named hname => exact .symbol one_ne_zero one_ne_zero (hV.symbol hname)
  | call _ _ hrules hargs => exact .call one_ne_zero one_ne_zero hrules hargs
  | plainBase _ _ _ hbase => exact hbase
  | _ => cases h

theorem IsAtom.isLoose_withPower (h : IsAtom mode base) (hV : ReadsAtoms V mode)
    (hbase : Canonical V.rules base) {p : Rat} (hp : p ≠ 0) : IsLoose V (base.withPower p) := by
  cases h with
  | named hname =>
      exact ⟨.symbol one_ne_zero hp (hV.symbol hname), rfl, rfl, by simp [withPower, group]⟩
  | call =>
      cases hbase with
      | call _ _ hrules hargs =>
          exact ⟨.call one_ne_zero hp hrules hargs, rfl, rfl, by simp [withPower, group]⟩

theorem IsAtom.signature_eq (h : IsAtom mode base) :
    base.signature = base.multiplicativeKey := by
  cases h <;> rfl

/-- What a power of an atom is. -/
theorem IsAtom.exists_raiseBase (h : IsAtom mode base) (hV : ReadsAtoms V mode)
    (hbase : Canonical V.rules base) (fuel : Nat) (hsum : Canonical V.rules sum) :
    ∃ node, raiseBase mode (fuel + 2) base (asExponent sum) = .ok node ∧
      IsUnion V base.multiplicativeKey sum.linear node := by
  cases hnumber : sum.isNumber with
  | true =>
      obtain ⟨p, rfl⟩ := exists_eq_number hnumber
      by_cases hp : p = 0
      · subst hp
        refine ⟨_, raiseBase_zero (isNumber_of_isPlain h.isPlain), ?_⟩
        rw [linear_number, Finsupp.single_zero]
        exact .one V _
      · refine ⟨_, raiseBase_of_isPlain _ h.isPlain (h.carries hp),
          .factor (h.isLoose_withPower hV hbase hp) ?_ ?_⟩
        · cases h <;> rfl
        · cases h <;> rfl
  | false =>
      refine ⟨.exponential 1 base sum, ?_, .factor ⟨.plainBase one_ne_zero h.isPlain
        (hV.exponential h) hbase hsum hnumber, rfl, rfl, by simp [group]⟩ ?_ rfl⟩
      · rw [raiseBase.eq_def]
        simp only [asExponent_asNode_asExponent]
        rw [asExponent_of_not_isNumber hnumber]
        exact exponential_of_isPlain h.isPlain
      · rw [multiplicativeKey_exponential, isNumber_of_isPlain h.isPlain, ← h.signature_eq]
        rfl

theorem IsAtom.multiplicativeKey {rules : Discipline} (h : IsAtom mode factor.baseOf)
    (hcanonical : Canonical rules factor) (hfactor : factor.isFactor = true) :
    factor.multiplicativeKey = factor.baseOf.multiplicativeKey := by
  rw [← h.signature_eq]
  cases hcanonical.isKind hfactor with
  | radical => cases h
  | powered hpowered =>
      rw [signature_baseOf_of_isPowered hpowered, Expr.multiplicativeKey, if_neg]
      cases factor with
      | polynomial | composite => cases h
      | _ => simp [isAtomSum, isSum]
  | @exponential c base e =>
      have hnumber : base.isNumber = false := isNumber_of_isPlain h.isPlain
      rw [multiplicativeKey_exponential, hnumber]
      rfl

/-- Powers of one atom unite. -/
theorem unites_of_isAtom (hV : ReadsAtoms V mode) (hold : IsLoose V old)
    (hfactor : IsLoose V factor) (hkey : old.multiplicativeKey = factor.multiplicativeKey)
    (h : IsAtom mode factor.baseOf) : Unites V mode old factor ∧ Unites V mode factor old := by
  have holdatom : IsAtom mode old.baseOf :=
    h.of_signature (hfactor.signature_baseOf hold hkey.symm)
  constructor
  · refine unites_of_raiseBase hold hfactor fun fuel sum hsum _ => ?_
    rw [← hkey, holdatom.multiplicativeKey hold.canonical hold.isFactor]
    exact holdatom.exists_raiseBase hV (holdatom.canonical_baseOf hV hold) fuel hsum
  · refine unites_of_raiseBase hfactor hold fun fuel sum hsum _ => ?_
    rw [hkey, h.multiplicativeKey hfactor.canonical hfactor.isFactor]
    exact h.exists_raiseBase hV (h.canonical_baseOf hV hfactor) fuel hsum

theorem IsAtom.joins (h : IsAtom mode factor.baseOf) (hV : ReadsAtoms V mode)
    (hfactor : IsLoose V factor) : Joins V mode factor :=
  joins_of_unites hfactor fun _ hold holdfactor hcoeff hkey =>
    unites_of_isAtom hV (hfactor.of_multiplicativeKey hold holdfactor hcoeff hkey) hfactor hkey h

/-- All canonical expressions may be multiplied with a power of an atom. -/
theorem multiplies_atom (hV : ReadsAtoms V mode) (hfactor : IsLoose V factor)
    (h : IsAtom mode factor.baseOf) :
    V.valuation.Multiplies mode fun a b =>
      (Canonical V.rules a ∧ b = factor) ∨ (a = factor ∧ Canonical V.rules b) where
  symm := by
    rintro a b (⟨ha, rfl⟩ | ⟨rfl, hb⟩)
    · exact .inr ⟨rfl, ha⟩
    · exact .inl ⟨hb, rfl⟩
  canonical := by
    rintro a b (⟨ha, -⟩ | ⟨rfl, -⟩)
    · exact ha
    · exact hfactor.canonical
  withCoeff_one := by
    rintro a b (⟨ha, hb⟩ | ⟨rfl, hb⟩)
    · exact .inl ⟨ha.withCoeff_one, hb⟩
    · exact .inr ⟨withCoeff_of_coeff_eq hfactor.coeff, hb⟩
  slots := by
    rintro a b (⟨ha, hb⟩ | ⟨rfl, -⟩) hsum slot hslot
    · exact .inl ⟨ha.slots slot hslot, hb⟩
    · rw [hfactor.isExpandedSum] at hsum
      cases hsum
  term := by
    have hjoins := h.joins hV hfactor
    have hvalue : V.readSlots (keyed [factor]) = V.valuation.value factor :=
      (V.readSlots_keyed_singleton factor).trans (congrArg V.read hfactor.formal.symm)
    rintro a b (⟨ha, rfl⟩ | ⟨rfl, hb⟩) hasum hbsum fuel
    · rw [← hvalue]
      exact (hjoins.formsTerm (fuel + 2) hfactor.canonical hfactor.isFactor hfactor.coeff ha
        hasum).1.results
    · rw [mul_comm, ← hvalue]
      exact (hjoins.formsTerm (fuel + 2) hfactor.canonical hfactor.isFactor hfactor.coeff hb
        hbsum).2.results

end Reduce

end ExactAlgebra
