import ExactAlgebra.Proofs.Function.ExactCall
import ExactAlgebra.Proofs.Number.RootPower

/-!
# Rounding

Rounding gives the multiple of a power of ten that is nearest to a number, and of two such
multiples the one with the larger magnitude.  There is only one such multiple, and so rounding
is odd, monotone and idempotent, whatever formula computes it.
-/

namespace ExactAlgebra

namespace Rule

/-! ## Nearest multiples -/

/-- A multiple of `unit`.  Any other multiple is farther from `value`, or as far from it and
smaller in magnitude. -/
structure IsNearest (unit value result : Rat) : Prop where
  multiple : ∃ n : Int, result = n * unit
  nearer : ∀ n : Int, (n : Rat) * unit ≠ result →
    |value - result| < |value - n * unit| ∨
      |value - result| = |value - n * unit| ∧ |(n : Rat) * unit| < |result|

namespace IsNearest

variable {unit factor value value' result result' : Rat}

theorem le (h : IsNearest unit value result) (n : Int) :
    |value - result| ≤ |value - n * unit| := by
  by_cases heq : (n : Rat) * unit = result
  · rw [heq]
  · rcases h.nearer n heq with hlt | ⟨htie, -⟩
    · exact hlt.le
    · exact htie.le

theorem unique (h : IsNearest unit value result) (h' : IsNearest unit value result') :
    result = result' := by
  by_contra hne
  rcases h.multiple with ⟨m, hm⟩
  rcases h'.multiple with ⟨n, hn⟩
  have hother := h.nearer n (by rw [← hn]; exact Ne.symm hne)
  have hother' := h'.nearer m (by rw [← hm]; exact hne)
  rw [← hn] at hother
  rw [← hm] at hother'
  rcases hother with hlt | ⟨htie, hsmaller⟩
  · rcases hother' with hlt' | ⟨htie', -⟩
    · exact lt_asymm hlt hlt'
    · exact hlt.ne htie'.symm
  · rcases hother' with hlt' | ⟨-, hsmaller'⟩
    · exact hlt'.ne htie.symm
    · exact lt_asymm hsmaller hsmaller'

theorem neg (h : IsNearest unit value result) : IsNearest unit (-value) (-result) := by
  have hmultiple : ∀ n : Int, ((-n : Int) : Rat) * unit = -(n * unit) := fun n => by
    rw [Int.cast_neg, neg_mul]
  constructor
  · rcases h.multiple with ⟨n, hn⟩
    exact ⟨-n, by rw [hn, hmultiple]⟩
  · intro n hne
    have hother := h.nearer (-n) (by
      rw [hmultiple]
      exact fun heq => hne (neg_eq_iff_eq_neg.mp heq))
    have hdistance : |-value - n * unit| = |value - -(n * unit)| := by
      rw [← abs_neg]
      congr 1
      ring
    rw [hmultiple, abs_neg] at hother
    rw [hdistance, neg_sub_neg, abs_sub_comm, abs_neg]
    exact hother

/-- A common positive factor changes nothing. -/
theorem mul (h : IsNearest unit value result) (hfactor : 0 < factor) :
    IsNearest (unit * factor) (value * factor) (result * factor) := by
  constructor
  · rcases h.multiple with ⟨n, hn⟩
    exact ⟨n, by rw [hn, mul_assoc]⟩
  · intro n hne
    have hother := h.nearer n (by
      rintro heq
      exact hne (by rw [← heq, mul_assoc]))
    have habs : ∀ x : Rat, |x * factor| = |x| * factor := fun x => by
      rw [abs_mul, abs_of_pos hfactor]
    rw [← mul_assoc, ← sub_mul, ← sub_mul, habs, habs, habs, habs,
      mul_lt_mul_iff_left₀ hfactor, mul_lt_mul_iff_left₀ hfactor, mul_left_inj' hfactor.ne']
    exact hother

theorem self (h : ∃ n : Int, result = n * unit) : IsNearest unit result result := by
  refine ⟨h, fun n hne => ?_⟩
  apply Or.inl
  rw [sub_self, abs_zero]
  exact abs_pos.mpr (sub_ne_zero.mpr (Ne.symm hne))

/-- A number that is no farther from the larger of two others lies above their middle. -/
theorem add_le_two_mul (hlt : result' < result) (h : |value - result| ≤ |value - result'|) :
    result + result' ≤ 2 * value := by
  by_contra hlow
  rw [not_le] at hlow
  have hfar : |value - result'| < result - value := abs_lt.mpr ⟨by linarith, by linarith⟩
  have hnear : result - value ≤ |value - result| := by
    rw [abs_sub_comm]
    exact le_abs_self _
  exact absurd h (not_le.mpr (hfar.trans_le hnear))

/-- If the results came in the other order, both numbers would lie in the middle between them,
and so be equal. -/
theorem mono (h : IsNearest unit value result) (h' : IsNearest unit value' result')
    (hle : value ≤ value') : result ≤ result' := by
  by_contra hlt
  rw [not_le] at hlt
  rcases h.multiple with ⟨m, hm⟩
  rcases h'.multiple with ⟨n, hn⟩
  have hnear := h.le n
  have hnear' := h'.le m
  rw [← hn] at hnear
  rw [← hm] at hnear'
  have hmiddle : result + result' ≤ 2 * value := add_le_two_mul hlt hnear
  have hmiddle' : -result' + -result ≤ 2 * -value' := by
    apply add_le_two_mul (neg_lt_neg hlt)
    rwa [neg_sub_neg, neg_sub_neg, abs_sub_comm result', abs_sub_comm result]
  have heq : value = value' := by linarith
  subst heq
  exact hlt.ne (h'.unique h)

end IsNearest

/-! ## The formula -/

/-- Rounding half up gives the nearest integer to a number that is not negative. -/
theorem isNearest_floor {value : Rat} (hvalue : 0 ≤ value) :
    IsNearest 1 value ((value + 1 / 2).floor : Rat) := by
  have hle : ((value + 1 / 2).floor : Rat) ≤ value + 1 / 2 := Rat.floor_le _
  have hlt : value + 1 / 2 < ((value + 1 / 2).floor : Rat) + 1 := by
    exact_mod_cast Rat.lt_floor_add_one (value + 1 / 2)
  have hpos : 0 ≤ (value + 1 / 2).floor := Rat.le_floor_iff.mpr (by
    push_cast
    linarith)
  generalize (value + 1 / 2).floor = nearest at *
  have hhalf : |value - nearest| ≤ 1 / 2 := abs_le.mpr ⟨by linarith, by linarith⟩
  refine ⟨⟨nearest, (mul_one _).symm⟩, fun n hne => ?_⟩
  rw [mul_one] at hne ⊢
  have hne' : n ≠ nearest := fun heq => hne (by rw [heq])
  rcases lt_or_gt_of_ne hne' with hbelow | habove
  · have hstep : (n : Rat) + 1 ≤ nearest := by exact_mod_cast hbelow
    have hfar : value - n ≤ |value - n| := le_abs_self _
    rcases lt_or_ge n 0 with hneg | hnonneg
    · have hneg' : (n : Rat) + 1 ≤ 0 := by exact_mod_cast hneg
      exact .inl (by linarith)
    · -- only here a tie is possible, at a half
      have hmagnitude : |(n : Rat)| < |(nearest : Rat)| := by
        rw [abs_of_nonneg (Int.cast_nonneg hnonneg), abs_of_nonneg (Int.cast_nonneg hpos)]
        exact_mod_cast hbelow
      have hle' : |value - nearest| ≤ |value - n| := by linarith
      exact hle'.lt_or_eq.imp id fun htie => ⟨htie, hmagnitude⟩
  · have hstep : (nearest : Rat) + 1 ≤ n := by exact_mod_cast habove
    have hfar : -(value - n) ≤ |value - n| := neg_le_abs _
    exact .inl (by linarith)

theorem rat_abs_eq (value : Rat) : value.abs = |value| := by
  rw [Rat.abs]
  split_ifs with h
  · exact (abs_of_nonneg h).symm
  · exact (abs_of_neg (not_le.mp h)).symm

/-- The magnitude is rounded as a number of units, and gets its sign back. -/
theorem isNearest_roundTo (value : Rat) (places : Int) :
    IsNearest (10 ^ (-places)) value (roundTo value places) := by
  have hunit : (0 : Rat) < 10 ^ (-places) := zpow_pos (by norm_num) _
  have hfactor : (10 : Rat) ^ places * 10 ^ (-places) = 1 := by
    rw [← zpow_add₀ (by norm_num), add_neg_cancel, zpow_zero]
  have hscaled : 0 ≤ |value| * (10 : Rat) ^ places :=
    mul_nonneg (abs_nonneg _) (zpow_nonneg (by norm_num) _)
  have hmagnitude := (isNearest_floor hscaled).mul hunit
  rw [one_mul, mul_assoc, hfactor, mul_one, zpow_neg, ← div_eq_mul_inv] at hmagnitude
  rw [roundTo, ratio_power_eq_zpow, rat_abs_eq, zpow_neg]
  by_cases hsign : value < 0
  · have hneg := hmagnitude.neg
    rw [abs_of_neg hsign, neg_neg] at hneg
    simp only [hsign, if_true]
    rwa [abs_of_neg hsign]
  · simp only [hsign, if_false]
    rwa [abs_of_nonneg (not_lt.mp hsign)] at hmagnitude ⊢

theorem rounded_number (value : Rat) (places : Int) :
    rounded (.number value) (some (.number places)) = constant (roundTo value places) := by
  simp [rounded, integer?, Expr.constant?, Ratio.isInteger]

end Rule

/-! ## Main result -/

namespace Environment

open Rule

/-- The built-in function that rounds to a number of places, in exact and in numeric mode. -/
theorem call_round {env : Environment}
    (hround : env.functions.get? "round" = FunctionTable.standard.get? "round") (places : Int) :
    (∀ value : Rat, env.call "round" [.number value, .number places] =
        .ok (.number (roundTo value places)) ∧
      IsNearest (10 ^ (-places)) value (roundTo value places)) ∧
    (∀ value : Rat, roundTo (-value) places = -roundTo value places) ∧
    Monotone (roundTo · places) ∧
    ∀ value : Rat, roundTo (roundTo value places) places = roundTo value places := by
  have hnearest := fun value => isNearest_roundTo value places
  refine ⟨fun value => ⟨?_, hnearest value⟩, fun value => ?_, fun value value' hle => ?_,
    fun value => ?_⟩
  · exact call_of_exact hround rfl (rounded_number value places)
  · exact (hnearest (-value)).unique (hnearest value).neg
  · exact (hnearest value).mono (hnearest value') hle
  · exact (hnearest (roundTo value places)).unique (IsNearest.self (hnearest value).multiple)

/-- A half goes away from zero, and a negative number of places rounds to tens. -/
theorem call_round_negative_half :
    standard.call "round" [.number (-25), .number (-1)] = .ok (.number (-30)) ∧
      IsNearest (10 ^ (1 : Int)) (-25) (-30) ∧ roundTo 25 (-1) = 30 ∧
      Monotone (roundTo · (-1)) ∧ roundTo (-30) (-1) = -30 := by
  have hvalue : roundTo (-25) (-1) = -30 := by decide +kernel
  rcases @call_round standard rfl (-1) with ⟨hcall, hodd, hmono, hidempotent⟩
  have hresult := hcall (-25)
  have hopposite := hodd (-25)
  have hagain := hidempotent (-25)
  rw [hvalue] at hresult hopposite hagain
  rw [neg_neg, neg_neg] at hopposite
  exact ⟨hresult.1, hresult.2, hopposite, hmono, hagain⟩

end Environment

end ExactAlgebra
