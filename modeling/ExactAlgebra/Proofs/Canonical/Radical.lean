import ExactAlgebra.Proofs.Canonical.Basic
import ExactAlgebra.Proofs.Number.Exponents

/-!
# Canonical products of radicals

The canonical form of a product of powers has a coefficient other than zero, and
its factors are canonical radicals.  Of one or two powers it has distinct bases.
-/

namespace ExactAlgebra.Reduce

variable {mode : Mode} {form : RadicalForm} {radicals roots : List (Rat × Rat)}

/-- The radical with a given base and exponent. -/
def radicalOf (root : Rat × Rat) : Expr := .radical 1 root.1 root.2

/-! ## Powers of minus one -/

/-- The extra factor of a power of minus one. -/
inductive IsExtra (mode : Mode) : Option Expr → Prop
  | real : IsExtra mode none
  | imaginary : IsExtra mode (some (.named mode.imaginary))
  | root {power : Rat} (h : IsRadical (-1) power) : IsExtra mode (some (.radical 1 (-1) power))

theorem modulo_two_nonneg (power : Rat) : 0 ≤ Ratio.modulo power 2 := by
  have hle := Rat.floor_le (power / 2)
  unfold Ratio.modulo
  linarith

theorem modulo_two_lt (power : Rat) : Ratio.modulo power 2 < 2 := by
  have hlt : power / 2 < ((power / 2).floor + 1 : Int) := Rat.lt_floor_add_one (power / 2)
  push_cast at hlt
  unfold Ratio.modulo
  linarith

/-- A power of minus one is a sign, and at most one factor. -/
theorem negativeOnePower_cases (hmode : mode.numeric = false) (power : Rat) :
    ∃ sign extra, negativeOnePower mode power = .ok (sign, extra) ∧ (sign = 1 ∨ sign = -1) ∧
      IsExtra mode extra := by
  unfold negativeOnePower
  simp only [hmode, Bool.false_eq_true, if_false]
  split_ifs with hodd hsign htwo hhalf
  · exact ⟨1, none, rfl, .inl rfl, .real⟩
  · exact ⟨-1, none, rfl, .inr rfl, .real⟩
  · exact ⟨1, _, rfl, .inl rfl, .imaginary⟩
  · exact ⟨-1, _, rfl, .inr rfl, .imaginary⟩
  · refine ⟨1, _, rfl, .inl rfl, .root (.inr ⟨rfl, ?_, modulo_two_lt power, ?_, ?_⟩)⟩
    · refine (modulo_two_nonneg power).lt_of_ne fun hzero => hodd ?_
      rw [← hzero]
      rfl
    · omega
    · have := (Ratio.modulo power 2).den_pos
      omega

/-! ## Radicals -/

/-- What the canonical form of a product of powers is made of. -/
structure IsForm (mode : Mode) (form : RadicalForm) (roots : List (Rat × Rat)) : Prop where
  factors : form.factors = roots.map radicalOf
  coefficient : form.coefficient ≠ 0
  radical : ∀ root ∈ roots, IsRadical root.1 root.2
  extras : ∀ extra ∈ form.extras, extra = .named mode.imaginary

theorem integralPart_ne_zero {large : List Nat} {exponents : Exponents}
    (h : IsExponents large exponents) : integralPart exponents ≠ 0 := by
  suffices ∀ start : Rat, start ≠ 0 → exponents.foldl (fun product entry =>
      product * Ratio.power entry.1 entry.2.floor) start ≠ 0 from this 1 one_ne_zero
  have hpower : ∀ entry ∈ exponents, Ratio.power entry.1 entry.2.floor ≠ 0 := by
    intro entry hentry
    have htwo := h.two_le entry hentry
    have hne : (entry.1 : Rat) ≠ 0 := by
      exact_mod_cast (by omega : entry.1 ≠ 0)
    unfold Ratio.power
    split_ifs
    · exact pow_ne_zero _ hne
    · exact inv_ne_zero (pow_ne_zero _ hne)
  clear h
  induction exponents with
  | nil => exact fun start hstart => hstart
  | cons entry rest ih =>
      rw [List.forall_mem_cons] at hpower
      intro start hstart
      exact ih hpower.2 _ (mul_ne_zero hstart hpower.1)

/-- Bases and exponents of the groups. -/
def groupRoots (exponents : Exponents) : List (Rat × Rat) :=
  (fractionalPart exponents).map fun group => ((group.2 : Rat), group.1)

theorem map_fractionalPart (exponents : Exponents) :
    ((fractionalPart exponents).map fun (power, base) => Expr.radical 1 base power) =
      (groupRoots exponents).map radicalOf := by
  rw [groupRoots, List.map_map]
  rfl

theorem isRadical_of_mem_groupRoots {large : List Nat} {exponents : Exponents}
    (h : IsExponents large exponents) :
    ∀ root ∈ groupRoots exponents, IsRadical root.1 root.2 ∧ root.1 ≠ -1 := by
  refine List.forall_mem_map.mpr ?_
  rintro ⟨power, base⟩ hgroup
  have htwo := h.two_le_base hgroup
  obtain ⟨hzero, hne, -⟩ := mem_fractionalPart.mp hgroup
  obtain ⟨n, hn⟩ := List.exists_mem_of_ne_nil _ hne
  obtain ⟨x, -, rfl⟩ := mem_members.mp hn
  have hbase : (2 : Rat) ≤ base := by exact_mod_cast htwo
  refine ⟨.inl ⟨by simp, hbase, (fraction_nonneg x).lt_of_ne (Ne.symm hzero),
    fraction_lt_one x⟩, ?_⟩
  change (base : Rat) ≠ -1
  linarith

theorem nodup_groupRoots {large : List Nat} {exponents : Exponents}
    (h : IsExponents large exponents) (hlarge : large.length ≤ 2) :
    ((groupRoots exponents).map Prod.fst).Nodup := by
  rw [groupRoots, List.map_map]
  refine List.Nodup.map_on ?_ (List.Nodup.of_map _ (powers_fractionalPart exponents))
  rintro ⟨p, base⟩ hp ⟨q, base'⟩ hq hbase
  have heq : base = base' := by simpa using hbase
  subst heq
  rw [h.power_eq_of_base hlarge hp hq]

/-- The canonical form, from the exponents of the factors of all bases. -/
theorem combineRadicals_eq (hmode : mode.numeric = false) {turn : Rat} {exponents : Exponents}
    (hcollect : collectExponents radicals = .ok (turn, exponents)) :
    ∃ form turns, combineRadicals mode radicals = .ok form ∧
      form.factors = (turns ++ groupRoots exponents).map radicalOf ∧
      (form.coefficient = integralPart exponents ∨ form.coefficient = -integralPart exponents) ∧
      (turns = [] ∨ ∃ power, IsRadical (-1) power ∧ turns = [(-1, power)]) ∧
      ∀ extra ∈ form.extras, extra = .named mode.imaginary := by
  obtain ⟨sign, extra, hsign, hunit, hextra⟩ := negativeOnePower_cases hmode turn
  have hcoefficient : sign * integralPart exponents = integralPart exponents ∨
      sign * integralPart exponents = -integralPart exponents := by
    rcases hunit with rfl | rfl
    · exact .inl (one_mul _)
    · exact .inr (neg_one_mul _)
  rw [combineRadicals, hcollect]
  simp only [bind, Except.bind, hsign, map_fractionalPart]
  cases hextra with
  | real => exact ⟨_, [], rfl, rfl, hcoefficient, .inl rfl, by simp⟩
  | imaginary => exact ⟨_, [], rfl, rfl, hcoefficient, .inl rfl, by simp⟩
  | root h => exact ⟨_, [(-1, _)], rfl, rfl, hcoefficient, .inr ⟨_, h, rfl⟩, by simp⟩

/-- A product of powers has a canonical form. -/
theorem exists_isForm (hmode : mode.numeric = false)
    (hradicals : ∀ radical ∈ radicals, IsFactorable radical.1) :
    ∃ form roots, combineRadicals mode radicals = .ok form ∧ IsForm mode form roots ∧
      (radicals.length ≤ 2 → (roots.map Prod.fst).Nodup) := by
  obtain ⟨large, turn, exponents, hcollect, hexponents, hlarge⟩ :=
    exists_collectExponents hradicals
  obtain ⟨form, turns, hform, hfactors, hcoefficient, hturns, hextras⟩ :=
    combineRadicals_eq hmode hcollect
  have hpart := integralPart_ne_zero hexponents
  have hgroups := isRadical_of_mem_groupRoots hexponents
  refine ⟨form, turns ++ groupRoots exponents, hform, ⟨hfactors, ?_, ?_, hextras⟩, ?_⟩
  · rcases hcoefficient with h | h <;> rw [h]
    · exact hpart
    · exact neg_ne_zero.mpr hpart
  · refine List.forall_mem_append.mpr ⟨?_, fun root hroot => (hgroups root hroot).1⟩
    rcases hturns with rfl | ⟨power, hpower, rfl⟩
    · simp
    · exact List.forall_mem_singleton.mpr hpower
  · intro hlength
    have hnodup := nodup_groupRoots hexponents (hlarge.trans hlength)
    rcases hturns with rfl | ⟨power, -, rfl⟩
    · exact hnodup
    · refine List.nodup_cons.mpr ⟨?_, hnodup⟩
      rintro hmem
      obtain ⟨root, hroot, hbase⟩ := List.mem_map.mp hmem
      exact (hgroups root hroot).2 hbase

theorem isFactorable_of_isRadical {base power : Rat} (h : IsRadical base power) :
    IsFactorable base := by
  rcases h with ⟨hden, htwo, -⟩ | ⟨rfl, -⟩
  · exact .inr (exists_natCast_of_two_le hden htwo)
  · exact .inl rfl

end ExactAlgebra.Reduce
