import ExactAlgebra.Number.Ratio
import Mathlib.Algebra.Order.Field.Basic
import Mathlib.Algebra.Order.Field.Rat
import Mathlib.Data.Nat.GCD.Basic
import Mathlib.Data.Rat.Lemmas
import Mathlib.RingTheory.Coprime.Lemmas
import Mathlib.RingTheory.Int.Basic
import Mathlib.Tactic.FieldSimp
import Mathlib.Tactic.NormNum
import Mathlib.Tactic.Ring

/-!
# Common divisors and multiples of rationals

One rational divides another if the quotient is an integer.  Because fractions are reduced, the
quotients of two rationals by their greatest common divisor are coprime.  This gives the
divisor as an integral combination of both, and with the product formula the least common
multiple.
-/

namespace ExactAlgebra.Ratio

/-- The quotient of `a` by `d` is an integer. -/
def Divides (d a : Rat) : Prop := ∃ k : Int, a / d = k

/-- A common divisor with coprime quotients, which every common divisor divides. -/
structure IsGreatestCommonDivisor (a b g : Rat) : Prop where
  pos : 0 < g
  coprime : ∃ u v : Int, a / g = u ∧ b / g = v ∧ IsCoprime u v
  greatest : ∀ d : Rat, d ≠ 0 → Divides d a → Divides d b → Divides d g

/-- A common multiple of which all common multiples are integral multiples. -/
structure IsLeastCommonMultiple (a b m : Rat) : Prop where
  pos : 0 < m
  left : Divides a m
  right : Divides b m
  least : ∀ c : Rat, Divides a c → Divides b c → ∃ k : Int, c = k * m

variable {a b d : Rat} {u v : Int}

theorem divides_iff (hd : d ≠ 0) : Divides d a ↔ ∃ k : Int, a = k * d := by
  simp only [Divides, div_eq_iff hd]

/-! ## The two formulas -/

theorem gcd_eq_div (a b : Rat) :
    gcd a b = (a.num.natAbs.gcd b.num.natAbs : Rat) / (a.den.lcm b.den : Rat) := by
  rw [gcd, Rat.mkRat_eq_div]
  push_cast
  rfl

theorem lcm_eq_div (ha : a ≠ 0) (hb : b ≠ 0) :
    lcm a b = (a.num.natAbs.lcm b.num.natAbs : Rat) / (a.den.gcd b.den : Rat) := by
  have hne : ¬ (a = 0 ∨ b = 0) := by simp [ha, hb]
  rw [lcm, if_neg hne, Rat.mkRat_eq_div]
  push_cast
  rfl

theorem gcd_pos (ha : a ≠ 0) (b : Rat) : 0 < gcd a b := by
  have hnum : 0 < a.num.natAbs.gcd b.num.natAbs :=
    Nat.gcd_pos_of_pos_left _ (Int.natAbs_pos.mpr (Rat.num_ne_zero.mpr ha))
  have hden : 0 < a.den.lcm b.den := Nat.lcm_pos a.den_pos b.den_pos
  rw [gcd_eq_div]
  apply div_pos
  · exact_mod_cast hnum
  · exact_mod_cast hden

theorem abs_eq_natAbs_div (a : Rat) : |a| = (a.num.natAbs : Rat) / (a.den : Rat) := by
  have hden : (0 : Rat) ≤ a.den := Nat.cast_nonneg _
  rw [Nat.cast_natAbs, Int.cast_abs, ← abs_of_nonneg hden, ← abs_div, Rat.num_div_den]

theorem gcd_mul_lcm (ha : a ≠ 0) (hb : b ≠ 0) : gcd a b * lcm a b = |a * b| := by
  have hnum : (a.num.natAbs.gcd b.num.natAbs : Rat) * (a.num.natAbs.lcm b.num.natAbs : Rat) =
      a.num.natAbs * b.num.natAbs := by
    exact_mod_cast Nat.gcd_mul_lcm _ _
  have hden : (a.den.lcm b.den : Rat) * (a.den.gcd b.den : Rat) = a.den * b.den := by
    rw [mul_comm]
    exact_mod_cast Nat.gcd_mul_lcm _ _
  calc gcd a b * lcm a b
      = ((a.num.natAbs.gcd b.num.natAbs : Rat) * (a.num.natAbs.lcm b.num.natAbs : Rat)) /
          ((a.den.lcm b.den : Rat) * (a.den.gcd b.den : Rat)) := by
        rw [gcd_eq_div, lcm_eq_div ha hb, div_mul_div_comm]
    _ = ((a.num.natAbs : Rat) * b.num.natAbs) / (a.den * b.den) := by rw [hnum, hden]
    _ = |a| * |b| := by rw [abs_eq_natAbs_div a, abs_eq_natAbs_div b, div_mul_div_comm]
    _ = |a * b| := (abs_mul a b).symm

theorem lcm_pos (ha : a ≠ 0) (hb : b ≠ 0) : 0 < lcm a b := by
  have hproduct : 0 < gcd a b * lcm a b := by
    rw [gcd_mul_lcm ha hb]
    exact abs_pos.mpr (mul_ne_zero ha hb)
  exact pos_of_mul_pos_right hproduct (gcd_pos ha b).le

/-! ## Quotients -/

section

variable {p x : Int} {q s y : Nat}

/-- Factors of the numerator and of the denominator are coprime. -/
theorem isCoprime_of_factors (hnum : a.num = p * x) (hden : a.den = q * y) :
    IsCoprime p (q : Int) := by
  have hreduced : IsCoprime a.num (a.den : Int) := Int.isCoprime_iff_gcd_eq_one.mpr a.reduced
  rw [hnum, hden] at hreduced
  push_cast at hreduced
  exact hreduced.of_mul_left_left.of_mul_right_left

theorem eq_mul_div_of_factors (hnum : a.num = p * x) (hden : a.den = q * y) (hs : s ≠ 0) :
    a = ((p * s : Int) : Rat) * (x / (q * s * y : Nat)) := by
  have hsne : (s : Rat) ≠ 0 := Nat.cast_ne_zero.mpr hs
  calc a = ((p * x : Int) : Rat) / (q * y : Nat) := by rw [← hnum, ← hden, Rat.num_div_den]
    _ = _ := by
      push_cast
      field_simp

end

/-- The quotients by the greatest common divisor.  A prime in both of them would divide the
numerator and the denominator of one fraction. -/
theorem exists_eq_mul_gcd (ha : a ≠ 0) (b : Rat) :
    ∃ u v : Int, a = u * gcd a b ∧ b = v * gcd a b ∧ IsCoprime u v := by
  have hpos : 0 < Int.gcd a.num b.num := Int.gcd_pos_of_ne_zero_left _ (Rat.num_ne_zero.mpr ha)
  rcases Int.exists_gcd_one hpos with ⟨p, r, hpr, hp, hr⟩
  rcases Nat.exists_coprime a.den b.den with ⟨q, s, hqs, hq, hs⟩
  have hlcm : a.den.lcm b.den = q * s * a.den.gcd b.den := by
    calc a.den.lcm b.den = (q * a.den.gcd b.den).lcm (s * a.den.gcd b.den) := by rw [← hq, ← hs]
      _ = q * s * a.den.gcd b.den := by rw [Nat.lcm_mul_right, Nat.Coprime.lcm_eq_mul hqs]
  have hgcd : gcd a b = ((Int.gcd a.num b.num : Int) : Rat) / (q * s * a.den.gcd b.den : Nat) := by
    rw [gcd_eq_div, hlcm]
    rfl
  have hqne : q ≠ 0 := by
    rintro rfl
    simp at hq
  have hsne : s ≠ 0 := by
    rintro rfl
    simp at hs
  refine ⟨p * s, r * q, ?_, ?_, ?_⟩
  · rw [hgcd]
    exact eq_mul_div_of_factors hp hq hsne
  · rw [hgcd, mul_comm q s]
    exact eq_mul_div_of_factors hr hs hqne
  · have hpr' : IsCoprime p r := Int.isCoprime_iff_gcd_eq_one.mpr hpr
    have hqs' : IsCoprime (q : Int) (s : Int) := Nat.isCoprime_iff_coprime.mpr hqs
    have hpq : IsCoprime p (q : Int) := isCoprime_of_factors hp hq
    have hrs : IsCoprime r (s : Int) := isCoprime_of_factors hr hs
    exact (hpr'.mul_right hpq).mul_left (hrs.symm.mul_right hqs'.symm)

/-- The least common multiple in terms of the quotients by the greatest common divisor. -/
theorem exists_lcm_eq (ha : a ≠ 0) (hb : b ≠ 0) (hu : a = u * gcd a b) (hv : b = v * gcd a b) :
    ∃ sign : Int, sign * sign = 1 ∧ lcm a b = sign * (u * v) * gcd a b := by
  have hg := gcd_pos ha b
  have habs : lcm a b = |(u : Rat) * v| * gcd a b := by
    apply mul_left_cancel₀ hg.ne'
    calc gcd a b * lcm a b
        = |(u * gcd a b) * (v * gcd a b)| := by rw [gcd_mul_lcm ha hb, ← hu, ← hv]
      _ = gcd a b * (|(u : Rat) * v| * gcd a b) := by
          rw [mul_mul_mul_comm, abs_mul, abs_of_pos (mul_pos hg hg)]
          ring
  rcases abs_choice ((u : Rat) * v) with h | h
  · exact ⟨1, rfl, by rw [habs, h, Int.cast_one, one_mul]⟩
  · exact ⟨-1, rfl, by rw [habs, h, Int.cast_neg, Int.cast_one, neg_one_mul]⟩

/-! ## Main results -/

theorem isGreatestCommonDivisor_gcd (ha : a ≠ 0) (b : Rat) :
    IsGreatestCommonDivisor a b (gcd a b) := by
  have hg := gcd_pos ha b
  rcases exists_eq_mul_gcd ha b with ⟨u, v, hu, hv, hcoprime⟩
  refine ⟨hg, ⟨u, v, ?_, ?_, hcoprime⟩, ?_⟩
  · rwa [div_eq_iff hg.ne']
  · rwa [div_eq_iff hg.ne']
  · intro d hd hda hdb
    rw [divides_iff hd] at hda hdb ⊢
    rcases hda with ⟨m, hm⟩
    rcases hdb with ⟨n, hn⟩
    -- the coprime quotients make the divisor an integral combination of `a` and `b`
    rcases hcoprime with ⟨s, t, hst⟩
    have hone : (s : Rat) * u + t * v = 1 := by exact_mod_cast hst
    refine ⟨s * m + t * n, ?_⟩
    calc gcd a b = (s * u + t * v) * gcd a b := by rw [hone, one_mul]
      _ = s * (u * gcd a b) + t * (v * gcd a b) := by ring
      _ = s * a + t * b := by rw [← hu, ← hv]
      _ = s * (m * d) + t * (n * d) := by rw [← hm, ← hn]
      _ = ((s * m + t * n : Int) : Rat) * d := by
          push_cast
          ring

theorem isLeastCommonMultiple_lcm (ha : a ≠ 0) (hb : b ≠ 0) :
    IsLeastCommonMultiple a b (lcm a b) := by
  have hg := gcd_pos ha b
  rcases exists_eq_mul_gcd ha b with ⟨u, v, hu, hv, hcoprime⟩
  rcases exists_lcm_eq ha hb hu hv with ⟨sign, hsign, hlcm⟩
  have hsquare : (sign : Rat) * sign = 1 := by exact_mod_cast hsign
  refine ⟨lcm_pos ha hb, ?_, ?_, ?_⟩
  · rw [divides_iff ha]
    refine ⟨sign * v, ?_⟩
    calc lcm a b = sign * v * (u * gcd a b) := by
          rw [hlcm]
          ring
      _ = ((sign * v : Int) : Rat) * a := by rw [← hu, Int.cast_mul]
  · rw [divides_iff hb]
    refine ⟨sign * u, ?_⟩
    calc lcm a b = sign * u * (v * gcd a b) := by
          rw [hlcm]
          ring
      _ = ((sign * u : Int) : Rat) * b := by rw [← hv, Int.cast_mul]
  · intro c hac hbc
    rw [divides_iff ha] at hac
    rw [divides_iff hb] at hbc
    rcases hac with ⟨j, hj⟩
    rcases hbc with ⟨k, hk⟩
    have hquotients : j * u = k * v := by
      have hcommon : (j : Rat) * u * gcd a b = k * v * gcd a b := by
        rw [mul_assoc, ← hu, ← hj, mul_assoc, ← hv, ← hk]
      exact_mod_cast mul_right_cancel₀ hg.ne' hcommon
    -- coprime quotients leave only multiples of `u` for the second factor
    rcases hcoprime.dvd_of_dvd_mul_right ⟨j, by rw [← hquotients, mul_comm]⟩ with ⟨t, ht⟩
    refine ⟨sign * t, ?_⟩
    calc c = k * b := hk
      _ = u * t * (v * gcd a b) := by rw [← hv, ht, Int.cast_mul]
      _ = (sign * sign) * t * ((u * v) * gcd a b) := by
          rw [hsquare]
          ring
      _ = ((sign * t : Int) : Rat) * lcm a b := by
          rw [hlcm, Int.cast_mul]
          ring

/-- The greatest common divisor and the least common multiple of rationals other than zero, and
their product. -/
theorem gcd_isGreatest_lcm_isLeast (ha : a ≠ 0) (hb : b ≠ 0) :
    IsGreatestCommonDivisor a b (gcd a b) ∧ IsLeastCommonMultiple a b (lcm a b) ∧
      gcd a b * lcm a b = |a * b| :=
  ⟨isGreatestCommonDivisor_gcd ha b, isLeastCommonMultiple_lcm ha hb, gcd_mul_lcm ha hb⟩

theorem gcd_isGreatest_lcm_isLeast_fractions :
    (-9 / 4 : Rat) ≠ 0 ∧ (15 / 2 : Rat) ≠ 0 ∧
      IsGreatestCommonDivisor (-9 / 4) (15 / 2) (3 / 4) ∧
      IsLeastCommonMultiple (-9 / 4) (15 / 2) (45 / 2) ∧
      (3 / 4 : Rat) * (45 / 2) = |(-9 / 4) * (15 / 2)| := by
  have hgcd : gcd (-9 / 4) (15 / 2) = 3 / 4 := by decide +kernel
  have hlcm : lcm (-9 / 4) (15 / 2) = 45 / 2 := by decide +kernel
  have hlaws := @gcd_isGreatest_lcm_isLeast (-9 / 4) (15 / 2) (by norm_num) (by norm_num)
  rw [hgcd, hlcm] at hlaws
  exact ⟨by norm_num, by norm_num, hlaws⟩

end ExactAlgebra.Ratio
