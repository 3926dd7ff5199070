import ExactAlgebra.Proofs.Canonical.Exponents
import ExactAlgebra.Proofs.Canonical.Factors
import ExactAlgebra.Proofs.Number.RootPower

/-!
# Terms of roots

A coefficient times roots: radicals, and the imaginary unit as the square root of minus one.
The power of such a term to the common denominator of the exponents is rational.  The canonical
form of a product of powers keeps it.
-/

namespace ExactAlgebra

open ExactAlgebra.Expr Reduce

/-! ## Terms of roots -/

namespace Expr

/-- Base and exponent of a root.  The imaginary unit is the square root of minus one. -/
def rootOf : Expr → Rat × Rat
  | radical _ base power => (base, power)
  | _ => (-1, 1 / 2)

/-- A root with an exponent of a given denominator. -/
inductive IsRoot (mode : Mode) (n : Nat) : Expr → Prop
  | radical {coeff base power : Rat} (h : IsFraction n power) :
      IsRoot mode n (.radical coeff base power)
  | imaginary {coeff : Rat} (h : IsFraction n (1 / 2)) :
      IsRoot mode n (.symbol coeff mode.imaginary 1)

/-- The power of a term of roots. -/
def rootPower (n : Nat) (node : Expr) : Rat :=
  node.coeff ^ n * powerValue n (node.factors.map rootOf)

end Expr

variable {mode : Mode} {n fuel : Nat} {c value value' : Rat} {a b node factor : Expr}
  {slots : Slots}

/-- A coefficient times roots, the power of which is known. -/
structure HasPower (mode : Mode) (n : Nat) (node : Expr) (value : Rat) : Prop where
  canonical : Canonical .free node
  roots : ∀ factor ∈ node.factors, IsRoot mode n factor
  power : node.rootPower n = value

/-- An outcome, if there is one, has a power that is known. -/
def GivesPower (mode : Mode) (n : Nat) (outcome : Except Fault Expr) (value : Rat) : Prop :=
  ∀ node, outcome = .ok node → HasPower mode n node value

theorem Expr.IsRoot.isFraction (h : IsRoot mode n factor) : IsFraction n factor.rootOf.2 := by
  cases h with
  | radical h => exact h
  | imaginary h => exact h

theorem Expr.IsRoot.isFactor (h : IsRoot mode n factor) : factor.isFactor = true := by
  cases h <;> rfl

theorem Expr.IsRoot.withCoeff (h : IsRoot mode n factor) (c : Rat) :
    IsRoot mode n (factor.withCoeff c) := by
  cases h with
  | radical h => exact .radical h
  | imaginary h => exact .imaginary h

namespace GivesPower

theorem ok (h : HasPower mode n node value) : GivesPower mode n (.ok node) value := by
  rintro _ ⟨⟩
  exact h

theorem error (fault : Fault) : GivesPower mode n (.error fault) value := by rintro _ ⟨⟩

theorem bind {outcome : Except Fault Expr} {next : Expr → Except Fault Expr}
    (h : GivesPower mode n outcome value)
    (hnext : ∀ node, HasPower mode n node value → GivesPower mode n (next node) value') :
    GivesPower mode n (outcome >>= next) value' := by
  cases outcome with
  | error fault => exact .error fault
  | ok node => exact hnext node (h node rfl)

theorem congr {outcome : Except Fault Expr} (h : GivesPower mode n outcome value)
    (heq : value = value') : GivesPower mode n outcome value' := heq ▸ h

/-- A product of several factors, one after the other. -/
theorem foldlM {step : Expr → Expr → Except Fault Expr} {list : List Expr}
    (hstep : ∀ total value, HasPower mode n total value → ∀ factor ∈ list,
      GivesPower mode n (step total factor) (value * factor.rootPower n))
    (h : HasPower mode n a value) :
    GivesPower mode n (list.foldlM step a) (value * (list.map (rootPower n)).prod) := by
  induction list generalizing a value with
  | nil => exact .ok (by simpa using h)
  | cons first rest ih =>
      rw [List.foldlM_cons, List.map_cons, List.prod_cons, ← mul_assoc]
      exact (hstep a value h first List.mem_cons_self).bind fun total htotal =>
        ih (fun total value htotal factor hfactor =>
          hstep total value htotal factor (List.mem_cons_of_mem _ hfactor)) htotal

end GivesPower

/-! ## Coefficients -/

theorem rootPower_number (n : Nat) (v : Rat) : (Expr.number v).rootPower n = v ^ n := by
  simp [rootPower, Expr.factors, Expr.coeff]

theorem hasPower_number (mode : Mode) (n : Nat) (v : Rat) :
    HasPower mode n (.number v) (v ^ n) :=
  ⟨.number v, by simp [Expr.factors], rootPower_number n v⟩

theorem rootPower_of_isRoot (h : IsRoot mode n factor) (hcoeff : factor.coeff = 1) :
    factor.rootPower n = powerValue n [factor.rootOf] := by
  rw [rootPower, factors_of_isFactor h.isFactor, hcoeff, one_pow, one_mul, List.map_singleton]

/-- A root by itself. -/
theorem Expr.IsRoot.hasPower (h : IsRoot mode n factor) (hcanonical : Canonical .free factor) :
    HasPower mode n factor (factor.rootPower n) :=
  ⟨hcanonical, by simpa [factors_of_isFactor h.isFactor] using h, rfl⟩

namespace HasPower

theorem isExpandedSum (h : HasPower mode n node value) : node.isExpandedSum = false := by
  cases hsum : node.isExpandedSum with
  | false => rfl
  | true =>
      have hfactors : node.factors = [node] := by
        cases node <;> first | rfl | cases hsum
      have hroot := (h.roots node (by simp [hfactors])).isFactor
      rw [isFactor_iff, hsum] at hroot
      exact absurd hroot.2.2 (by simp)

/-- A coefficient is raised by itself. -/
theorem scale (h : HasPower mode n node value) (hn : n ≠ 0) (c : Rat) :
    HasPower mode n (scale c node) (c ^ n * value) := by
  have hcanonical := canonical_scale_any Discipline.free_hereditary c h.canonical
  by_cases hc : c = 0
  · rw [hc, scale_zero, zero_pow hn, zero_mul]
    simpa [hn] using hasPower_number mode n 0
  rw [scale_of_not_isExpandedSum hc h.isExpandedSum] at hcanonical ⊢
  have hroots := h.roots
  have hpower := h.power
  cases node with
  | number v => exact ⟨hcanonical, hroots, by
      rw [← hpower, Expr.withCoeff, rootPower_number, rootPower_number, Expr.coeff, mul_pow,
        mul_comm]⟩
  | product coeff power slots => exact ⟨hcanonical, hroots, by
      rw [← hpower]
      simp only [Expr.withCoeff, rootPower, Expr.coeff, Expr.factors, mul_pow]
      ring⟩
  | radical | symbol =>
      refine ⟨hcanonical, List.forall_mem_singleton.mpr
        ((hroots _ List.mem_cons_self).withCoeff _), ?_⟩
      rw [← hpower]
      simp only [Expr.withCoeff, rootPower, Expr.coeff, Expr.factors, mul_pow, List.map_cons,
        List.map_nil, rootOf]
      ring
  | _ => cases hroots _ List.mem_cons_self

/-- The content of a term of roots. -/
theorem withCoeff_one (h : HasPower mode n node value) (hnumber : node.isNumber = false) :
    ∃ value', HasPower mode n (node.withCoeff 1) value' ∧ value = node.coeff ^ n * value' := by
  have hroots := h.roots
  have hpower := h.power
  refine ⟨(node.withCoeff 1).rootPower n, ⟨h.canonical.withCoeff_one, ?_, rfl⟩, ?_⟩
  · cases node with
    | number => cases hnumber
    | product => exact hroots
    | radical | symbol =>
        exact List.forall_mem_singleton.mpr ((hroots _ List.mem_cons_self).withCoeff _)
    | _ => cases hroots _ List.mem_cons_self
  · rw [← hpower]
    cases node with
    | number => cases hnumber
    | product | radical | symbol =>
        simp [Expr.withCoeff, rootPower, Expr.coeff, Expr.factors, rootOf]
    | _ => cases hroots _ List.mem_cons_self

end HasPower

theorem GivesPower.map_scale {outcome : Except Fault Expr} (h : GivesPower mode n outcome value)
    (hn : n ≠ 0) (c : Rat) : GivesPower mode n (outcome.map (Reduce.scale c)) (c ^ n * value) := by
  cases outcome with
  | error fault => exact .error fault
  | ok node => exact .ok ((h node rfl).scale hn c)

/-! ## Factors -/

/-- Slots of roots, which can stand in a product. -/
structure AreRoots (mode : Mode) (n : Nat) (slots : Slots) : Prop where
  part : IsProductPart .free slots
  canonical : ∀ slot ∈ slots, Canonical .free slot.2
  root : ∀ slot ∈ slots, IsRoot mode n slot.2

/-- Bases and exponents of some factors. -/
def rootsOf (factors : List Expr) : List (Rat × Rat) := factors.map rootOf

theorem powerValue_perm {roots roots' : List (Rat × Rat)} (h : roots.Perm roots') :
    powerValue n roots = powerValue n roots' := (h.map _).prod_eq

namespace AreRoots

theorem sublist (h : AreRoots mode n slots) {slots' : Slots} (hsub : slots'.Sublist slots) :
    AreRoots mode n slots' where
  part := h.part.sublist Discipline.free_hereditary hsub
  canonical := fun slot hslot => h.canonical slot (hsub.subset hslot)
  root := fun slot hslot => h.root slot (hsub.subset hslot)

/-- A coefficient times the factors in some slots. -/
theorem collapse (h : AreRoots mode n slots) (hn : n ≠ 0) (hc : c ≠ 0) :
    HasPower mode n (collapse (.product c 1 slots))
      (c ^ n * powerValue n (rootsOf slots.children)) := by
  match slots with
  | [] =>
      rw [Slots.children, List.map_nil, rootsOf, List.map_nil, powerValue_nil, mul_one]
      exact hasPower_number mode n c
  | [(key, factor)] =>
      have hroot : IsRoot mode n factor := h.root _ List.mem_cons_self
      have hpower := hroot.hasPower (h.canonical _ List.mem_cons_self)
      rw [rootPower_of_isRoot hroot (h.part.coeff _ List.mem_cons_self)] at hpower
      exact hpower.scale hn c
  | first :: second :: rest =>
      rw [collapse_two_le (by simp)]
      exact ⟨.product hc (h.part.isProduct (by simp)) h.canonical,
        List.forall_mem_map.mpr h.root, rfl⟩

end AreRoots

theorem areRoots_nil (mode : Mode) (n : Nat) : AreRoots mode n [] :=
  ⟨⟨Slots.distinct_nil, by simp, by simp, by simp, trivial⟩, by simp, by simp⟩

/-- The product of the powers of some factors. -/
theorem prod_rootPower {list : List Expr}
    (h : ∀ factor ∈ list, IsRoot mode n factor ∧ factor.coeff = 1) :
    (list.map (rootPower n)).prod = powerValue n (rootsOf list) := by
  rw [powerValue, rootsOf, List.map_map]
  refine congrArg List.prod (List.map_congr_left fun factor hfactor => ?_)
  rw [rootPower_of_isRoot (h factor hfactor).1 (h factor hfactor).2]
  simp

namespace HasPower

/-- A product of roots. -/
theorem product_cases (h : HasPower mode n node value) (hgroup : node.group = .product) :
    ∃ c slots, node = .product c 1 slots ∧ c ≠ 0 ∧ 2 ≤ slots.length ∧ AreRoots mode n slots ∧
      value = c ^ n * powerValue n (rootsOf (Slots.children slots)) := by
  obtain ⟨c, slots, rfl, hc, hslots, hfactors⟩ := product_of_group h.canonical hgroup
  refine ⟨c, slots, rfl, hc, hslots.two_le, ⟨hslots.part, hfactors, ?_⟩, h.power.symm⟩
  exact List.forall_mem_map.mp h.roots

/-- A term of roots that is neither a constant nor a product. -/
theorem isRoot (h : HasPower mode n node value) (hnumber : node.isNumber = false)
    (hgroup : node.group ≠ .product) : IsRoot mode n node :=
  h.roots node (by
    rw [factors_of_isFactor (isFactor_iff.mpr ⟨hnumber, hgroup, h.isExpandedSum⟩)]
    exact List.mem_singleton_self node)

end HasPower

/-! ## Powers of minus one -/

theorem isFraction_modulo {p : Rat} (h : IsFraction n p) :
    IsFraction n (Ratio.modulo p 2) ∧
      (-1 : Rat) ^ multiple n (Ratio.modulo p 2) = (-1) ^ multiple n p := by
  have hshift : Ratio.modulo p 2 = p + ((-2 * (p / 2).floor : Int) : Rat) := by
    rw [Ratio.modulo]
    push_cast
    ring
  have hturns := isFraction_intCast n (-2 * (p / 2).floor)
  rw [hshift]
  refine ⟨h.add hturns, ?_⟩
  have hmultiple : multiple n ((-2 * (p / 2).floor : Int) : Rat) = 2 * (-(n * (p / 2).floor)) :=
    multiple_of_eq (by push_cast; ring)
  rw [multiple_add h, zpow_add₀ (by norm_num), hmultiple, zpow_mul]
  norm_num

/-- An odd root of minus one is a sign. -/
theorem neg_one_zpow_of_odd {num k : Int} {den : Nat} (hden : Odd den) (h : n * num = k * den) :
    ((-1 : Rat) ^ num) ^ n = (-1) ^ k := by
  calc ((-1 : Rat) ^ num) ^ n = (-1) ^ (n * num) := by
        rw [← zpow_natCast, ← zpow_mul, mul_comm]
    _ = ((-1) ^ den) ^ k := by rw [h, mul_comm, zpow_mul, zpow_natCast]
    _ = (-1) ^ k := by rw [hden.neg_one_pow]

/-- The angles of the imaginary unit and its opposite. -/
theorem eq_half_of_den {turn : Rat} (hden : turn.den = 2) (hnonneg : 0 ≤ turn) (hlt : turn < 2) :
    turn = 1 / 2 ∨ turn = 1 / 2 + 1 := by
  have hnum : turn * 2 = turn.num := by
    have := Rat.mul_den_eq_num turn
    rwa [hden] at this
  have hlower : 0 ≤ turn.num := Rat.num_nonneg.mpr hnonneg
  have hupper : turn.num < 4 := by
    have : (turn.num : Rat) < 4 := by linarith
    exact_mod_cast this
  have hcoprime := turn.reduced
  rw [hden] at hcoprime
  obtain hzero | hone | htwo | hthree : turn.num = 0 ∨ turn.num = 1 ∨ turn.num = 2 ∨
      turn.num = 3 := by omega
  · rw [hzero] at hcoprime
    exact absurd hcoprime (by decide)
  · rw [hone] at hnum
    left
    push_cast at hnum
    linarith
  · rw [htwo] at hcoprime
    exact absurd hcoprime (by decide)
  · rw [hthree] at hnum
    right
    push_cast at hnum
    linarith

theorem isRoot_imaginary (h : IsFraction n (1 / 2)) : IsRoot mode n (.named mode.imaginary) :=
  .imaginary h

/-- A power of minus one, as a sign and a root. -/
theorem negativeOnePower_value (hmode : mode.numeric = false) {p sign : Rat} {extra : Option Expr}
    (h : IsFraction n p) (hok : negativeOnePower mode p = .ok (sign, extra)) :
    (∀ factor ∈ extra.toList, IsRoot mode n factor ∧ factor.coeff = 1) ∧
      sign ^ n * powerValue n (rootsOf extra.toList) = (-1) ^ multiple n p := by
  obtain ⟨hturn, hvalue⟩ := isFraction_modulo h
  have hnonneg := modulo_two_nonneg p
  have hlt := modulo_two_lt p
  rw [← hvalue]
  unfold negativeOnePower at hok
  simp only [hmode, Bool.false_eq_true, if_false] at hok
  generalize Ratio.modulo p 2 = turn at hturn hnonneg hlt hok ⊢
  have hcross : n * turn.num = multiple n turn * turn.den := by
    have hnum : turn * turn.den = turn.num := Rat.mul_den_eq_num turn
    have hcast : (n * turn.num : Rat) = multiple n turn * turn.den := by
      rw [hturn.cast_multiple, ← hnum]
      ring
    exact_mod_cast hcast
  split_ifs at hok with hodd hsign htwo hhalf
  · cases hok
    have hsquare := neg_one_zpow_of_odd (Nat.odd_iff.mpr hodd) hcross
    rw [Even.neg_one_zpow (Int.even_iff.mpr hsign)] at hsquare
    exact ⟨by simp, by simpa [rootsOf] using hsquare⟩
  · cases hok
    have hsquare := neg_one_zpow_of_odd (Nat.odd_iff.mpr hodd) hcross
    rw [Odd.neg_one_zpow (Int.odd_iff.mpr (by omega))] at hsquare
    exact ⟨by simp, by simpa [rootsOf] using hsquare⟩
  · cases hok
    rw [hhalf] at hturn ⊢
    refine ⟨List.forall_mem_singleton.mpr ⟨isRoot_imaginary hturn, rfl⟩, ?_⟩
    simp [rootsOf, rootOf, Expr.named]
  · cases hok
    obtain rfl := (eq_half_of_den htwo hnonneg hlt).resolve_left hhalf
    have hone : IsFraction n (1 / 2) := by
      have hless := hturn.add (isFraction_intCast n (-1))
      norm_num at hless ⊢
      exact hless
    refine ⟨List.forall_mem_singleton.mpr ⟨isRoot_imaginary hone, rfl⟩, ?_⟩
    rw [multiple_add hone, zpow_add₀ (by norm_num), multiple_one, zpow_natCast, mul_comm]
    simp [rootsOf, rootOf, Expr.named]
  · cases hok
    refine ⟨List.forall_mem_singleton.mpr ⟨.radical hturn, rfl⟩, ?_⟩
    simp [rootsOf, rootOf]

/-! ## The canonical form of a product of powers -/

/-- The canonical form keeps the power of the product. -/
theorem combineRadicals_value (hmode : mode.numeric = false) {radicals : List (Rat × Rat)}
    {form : RadicalForm}
    (h : ∀ radical ∈ radicals, IsFactorable radical.1 ∧ IsFraction n radical.2)
    (hok : combineRadicals mode radicals = .ok form) :
    (∀ factor ∈ form.factors ++ form.extras, IsRoot mode n factor ∧ factor.coeff = 1) ∧
      form.coefficient ^ n * powerValue n (rootsOf (form.factors ++ form.extras)) =
        powerValue n radicals := by
  obtain ⟨large, turn, exponents, hcollect, hexponents, hturn, hfractions, hvalue⟩ :=
    exists_collectExponents_value h
  obtain ⟨sign, extra, hsign, -, -⟩ := negativeOnePower_cases hmode turn
  obtain ⟨hextra, hminus⟩ := negativeOnePower_value hmode hturn hsign
  have hroots : rootsOf ((groupRoots exponents).map radicalOf) =
      rootsOfGroups (fractionalPart exponents) := by
    simp [rootsOf, rootsOfGroups, groupRoots, rootOf, radicalOf]
  have hgroups : ∀ factor ∈ (groupRoots exponents).map radicalOf,
      IsRoot mode n factor ∧ factor.coeff = 1 := by
    rw [groupRoots, List.map_map]
    exact List.forall_mem_map.mpr fun group hgroup => ⟨.radical (hfractions.group hgroup), rfl⟩
  have hform : form.coefficient = sign * integralPart exponents ∧
      (form.factors ++ form.extras).Perm
        (extra.toList ++ (groupRoots exponents).map radicalOf) := by
    rw [combineRadicals, hcollect] at hok
    simp only [bind, Except.bind, hsign, map_fractionalPart] at hok
    split at hok
    · cases hok
      simp
    · cases hok
      simp
    · cases hok
      exact ⟨rfl, List.perm_append_comm⟩
  obtain ⟨hcoefficient, hperm⟩ := hform
  refine ⟨fun factor hfactor => ?_, ?_⟩
  · exact (List.mem_append.mp (hperm.mem_iff.mp hfactor)).elim (hextra factor) (hgroups factor)
  · have hsplit : powerValue n (rootsOf (form.factors ++ form.extras)) =
        powerValue n (rootsOf extra.toList) *
          powerValue n (rootsOfGroups (fractionalPart exponents)) := by
      rw [rootsOf, powerValue_perm (hperm.map rootOf), List.map_append, powerValue_append, ← hroots]
      rfl
    rw [hcoefficient, hsplit, mul_pow, hvalue, ← hminus, ← powerValue_parts hexponents hfractions]
    ring

end ExactAlgebra
