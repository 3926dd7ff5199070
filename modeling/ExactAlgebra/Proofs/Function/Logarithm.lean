import ExactAlgebra.Proofs.Function.ExactCall
import Mathlib

/-!
# Integral logarithms

Dividing a number by a ratio above one, for as long as the number is above one, comes to an end.
It ends in one exactly for the powers of the ratio.  With reciprocals in place of a number or a
base below one, the logarithm is found if and only if the number is an integral power of the base.
-/

namespace ExactAlgebra

namespace Rule

variable {ratio value a b n : Rat} {state next : Rat × Nat} {count : Nat} {k : Int}

/-! ## Rounds -/

theorem divisionRound_eq_inl (h : divisionRound ratio state = .inl next) :
    1 < state.1 ∧ next = (state.1 / ratio, state.2 + 1) := by
  rw [divisionRound] at h
  split_ifs at h with hlt
  exact ⟨hlt, (Sum.inl.inj h).symm⟩

/-- There is no endless run of rounds from a state on. -/
def DivisionEnds (ratio : Rat) (state : Rat × Nat) : Prop :=
  Acc (fun next state => divisionRound ratio state = .inl next) state

/-- Division ends, as the powers of the ratio outgrow the value. -/
theorem divisionEnds (hratio : 1 < ratio) (state : Rat × Nat) : DivisionEnds ratio state := by
  obtain ⟨bound, hbound⟩ := pow_unbounded_of_one_lt state.1 hratio
  induction bound generalizing state with
  | zero =>
      constructor
      intro next hnext
      have hlt := (divisionRound_eq_inl hnext).1
      rw [pow_zero] at hbound
      linarith
  | succ bound ih =>
      constructor
      intro next hnext
      obtain ⟨-, rfl⟩ := divisionRound_eq_inl hnext
      apply ih
      rw [div_lt_iff₀ (by linarith), ← pow_succ]
      exact hbound

/-! ## Repeated division -/

theorem divisions_eq (ratio : Rat) (state : Rat × Nat) :
    divisions ratio state =
      match divisionRound ratio state with
      | .inl next => divisions ratio next
      | .inr last => last := by
  rw [divisions, repeatM_eq_of_monadTail, repeatM.body]
  cases divisionRound ratio state with
  | inl next => rfl
  | inr last => rfl

/-- Division stops in the first round that finds no value above one. -/
theorem DivisionEnds.exists_divisions_eq (h : DivisionEnds ratio state) :
    ∃ rounds, divisions ratio state = (state.1 / ratio ^ rounds, state.2 + rounds) ∧
      state.1 / ratio ^ rounds ≤ 1 ∧ ∀ j < rounds, 1 < state.1 / ratio ^ j := by
  induction h with
  | intro state _ ih =>
      by_cases hlt : 1 < state.1
      · have hround : divisionRound ratio state = .inl (state.1 / ratio, state.2 + 1) :=
          if_pos hlt
        rcases ih _ hround with ⟨rounds, heq, hle, hgt⟩
        have hpower (j : Nat) : state.1 / ratio / ratio ^ j = state.1 / ratio ^ (j + 1) := by
          rw [div_div, pow_succ']
        refine ⟨rounds + 1, ?_, ?_, ?_⟩
        · rw [divisions_eq, hround]
          dsimp only
          rw [heq, hpower, Nat.add_right_comm, Nat.add_assoc]
        · rw [← hpower]
          exact hle
        · intro j hj
          cases j with
          | zero => simpa using hlt
          | succ j =>
              rw [← hpower]
              exact hgt j (by omega)
      · have hround : divisionRound ratio state = .inr state := if_neg hlt
        refine ⟨0, ?_, ?_, ?_⟩
        · rw [divisions_eq, hround]
          simp
        · simpa using hlt
        · intro j hj
          omega

/-- Division ends in one exactly for the powers of the ratio, and then it has counted the
exponent. -/
theorem divisions_eq_one_iff (hratio : 1 < ratio) :
    divisions ratio (value, 0) = (1, count) ↔ ratio ^ count = value := by
  have hpos : 0 < ratio := by linarith
  rcases (divisionEnds hratio (value, 0)).exists_divisions_eq with ⟨rounds, heq, hle, hgt⟩
  rw [heq, Prod.mk.injEq, Nat.zero_add]
  constructor
  · rintro ⟨hone, rfl⟩
    exact ((div_eq_one_iff_eq (pow_pos hpos rounds).ne').mp hone).symm
  · intro hpower
    have hcount : count ≤ rounds := by
      rw [div_le_one (pow_pos hpos rounds), ← hpower] at hle
      exact (pow_le_pow_iff_right₀ hratio).mp hle
    have hrounds : ¬ count < rounds := by
      intro hlt
      have hpast := hgt count hlt
      rw [← hpower, div_self (pow_pos hpos count).ne'] at hpast
      exact lt_irrefl 1 hpast
    obtain rfl : rounds = count := by omega
    refine ⟨?_, rfl⟩
    rw [← hpower]
    exact div_self (pow_pos hpos rounds).ne'

/-! ## Numbers and bases below one -/

/-- The exponent of a number over the larger of itself and its reciprocal. -/
def orientation (a : Rat) : Int := if 1 < a then 1 else -1

theorem orientation_mul_self (a : Rat) : orientation a * orientation a = 1 := by
  unfold orientation
  split_ifs <;> rfl

theorem aboveOne_eq (a : Rat) : aboveOne a = a ^ orientation a := by
  unfold aboveOne orientation
  split_ifs
  · exact (zpow_one a).symm
  · exact (zpow_neg_one a).symm

theorem one_lt_aboveOne (hpos : 0 < a) (hne : a ≠ 1) : 1 < aboveOne a := by
  unfold aboveOne
  split_ifs with hlt
  · exact hlt
  · exact (one_lt_inv₀ hpos).mpr (lt_of_le_of_ne (not_lt.mp hlt) hne)

theorem zpow_orientation_inj (c : Rat) : a ^ orientation c = b ^ orientation c ↔ a = b := by
  unfold orientation
  split_ifs
  · rw [zpow_one, zpow_one]
  · rw [zpow_neg_one, zpow_neg_one, inv_inj]

/-- A power relation holds with reciprocals too, up to the sign of the exponent. -/
theorem zpow_eq_iff_aboveOne (b n : Rat) (k : Int) :
    b ^ k = n ↔ aboveOne b ^ (orientation n * orientation b * k) = aboveOne n := by
  have hexponent : orientation b * (orientation n * orientation b * k) = k * orientation n := by
    calc orientation b * (orientation n * orientation b * k)
        = orientation b * orientation b * (k * orientation n) := by ring
      _ = k * orientation n := by rw [orientation_mul_self, one_mul]
  rw [aboveOne_eq b, aboveOne_eq n, ← zpow_mul, hexponent, zpow_mul, zpow_orientation_inj]

/-! ## The logarithm -/

theorem integralLog?_eq_some_iff_divisions (hn : 0 < n) (hb : 0 < b) :
    integralLog? n b = some k ↔ ∃ count ≠ 0,
      divisions (aboveOne b) (aboveOne n, 0) = (1, count) ∧
        k = orientation n * orientation b * count := by
  have hsign (count : Nat) : (if decide (1 < n) == decide (1 < b) then (count : Int)
      else -(count : Int)) = orientation n * orientation b * count := by
    unfold orientation
    by_cases hlarge : 1 < n <;> by_cases hbase : 1 < b <;> simp [hlarge, hbase]
  rw [integralLog?, if_pos ⟨hn, hb⟩]
  rcases divisions (aboveOne b) (aboveOne n, 0) with ⟨rest, count⟩
  dsimp only
  rw [hsign]
  constructor
  · intro h
    split_ifs at h with hstop
    rw [not_or, not_not] at hstop
    rcases hstop with ⟨rfl, hcount⟩
    exact ⟨count, hcount, rfl, (Option.some.inj h).symm⟩
  · rintro ⟨count', hcount, heq, rfl⟩
    obtain ⟨rfl, rfl⟩ := Prod.mk.inj heq
    have hgo : ¬ ((1 : Rat) ≠ 1 ∨ count = 0) := by
      rintro (hone | hzero)
      · exact hone rfl
      · exact hcount hzero
    rw [if_neg hgo]

/-- The logarithm is found if and only if the number is an integral power of the base. -/
theorem integralLog?_eq_some_iff (hn : 0 < n) (hnone : n ≠ 1) (hb : 0 < b) (hbone : b ≠ 1) :
    integralLog? n b = some k ↔ b ^ k = n := by
  have hratio := one_lt_aboveOne hb hbone
  have hvalue := one_lt_aboveOne hn hnone
  have hsquare : orientation n * orientation b * (orientation n * orientation b) = 1 := by
    calc orientation n * orientation b * (orientation n * orientation b)
        = orientation n * orientation n * (orientation b * orientation b) := by ring
      _ = 1 := by rw [orientation_mul_self, orientation_mul_self, one_mul]
  rw [integralLog?_eq_some_iff_divisions hn hb, zpow_eq_iff_aboveOne]
  simp only [divisions_eq_one_iff hratio]
  constructor
  · rintro ⟨count, -, hpower, rfl⟩
    rw [← mul_assoc, hsquare, one_mul, zpow_natCast]
    exact hpower
  · intro hpower
    have hpos : 0 < orientation n * orientation b * k := by
      by_contra hle
      have hsmall := zpow_le_one_of_nonpos₀ hratio.le (not_lt.mp hle)
      rw [hpower] at hsmall
      linarith
    obtain ⟨count, hcount⟩ := Int.eq_ofNat_of_zero_le hpos.le
    rw [hcount, zpow_natCast] at hpower
    refine ⟨count, ?_, hpower, ?_⟩
    · rintro rfl
      omega
    · rw [← hcount, ← mul_assoc, hsquare, one_mul]

theorem integralLog?_eq_none_iff (hn : 0 < n) (hnone : n ≠ 1) (hb : 0 < b) (hbone : b ≠ 1) :
    integralLog? n b = none ↔ ∀ k : Int, b ^ k ≠ n := by
  rw [Option.eq_none_iff_forall_ne_some]
  apply forall_congr'
  intro k
  rw [ne_eq, integralLog?_eq_some_iff hn hnone hb hbone]

/-! ## Rules -/

theorem exactLog_number (n b : Rat) : exactLog (.number n) (.number b) =
    .ok ((integralLog? n b).map fun k => .number k) := rfl

theorem isZero_number (hn : n ≠ 0) : (Expr.number n).isZero = false := beq_false_of_ne hn

theorem isOne_number (hn : n ≠ 1) : (Expr.number n).isOne = false := beq_false_of_ne hn

/-- The shortcut for equal arguments agrees with the search. -/
theorem logarithm_number (hn : 0 < n) (hnone : n ≠ 1) (hb : 0 < b) (hbone : b ≠ 1) :
    logarithm (.number n) (some (.number b)) =
      .ok ((integralLog? n b).map fun k => .number k) := by
  simp only [logarithm, isZero_number hn.ne', isOne_number hnone, isZero_number hb.ne',
    isOne_number hbone, Bool.false_eq_true, Bool.or_self, if_false]
  split_ifs with hequal
  · have heq : n = b := by
      simpa [Expr.equals, Expr.signature, Expr.coeff, Expr.content] using hequal
    subst heq
    rw [(integralLog?_eq_some_iff hn hnone hn hnone).mpr (zpow_one n)]
    rfl
  · exact exactLog_number n b

theorem commonLogarithm_number (hn : 0 < n) (hnone : n ≠ 1) :
    commonLogarithm (.number n) = .ok ((integralLog? n 10).map fun k => .number k) := by
  simp only [commonLogarithm, isZero_number hn.ne', isOne_number hnone, Bool.false_eq_true,
    if_false]
  exact exactLog_number n 10

end Rule

/-! ## Main result -/

namespace Environment

open Rule

variable {env : Environment} {name : String} {args : List Expr} {x b : Rat}

/-- A call whose rule searches for a logarithm: its two outcomes. -/
theorem call_eq_iff_of_integralLog? (hx : 0 < x) (hxone : x ≠ 1) (hb : 0 < b) (hbone : b ≠ 1)
    (hcall : env.call name args =
      .ok (((integralLog? x b).map fun k => Expr.number k).getD (.apply name args))) :
    (∀ k : Int, env.call name args = .ok (.number k) ↔ b ^ k = x) ∧
      (env.call name args = .ok (.apply name args) ↔ ∀ k : Int, b ^ k ≠ x) := by
  rw [hcall, ← integralLog?_eq_none_iff hx hxone hb hbone]
  simp only [← integralLog?_eq_some_iff hx hxone hb hbone]
  cases integralLog? x b with
  | none => simp [Expr.apply]
  | some found => simp [Expr.apply]

/-- The logarithm of a positive number to a positive base.  The division behind it ends, and its
result is the exponent if there is one, and the call itself if there is none. -/
theorem call_log (hexact : env.mode.numeric = false)
    (hlog : env.functions.get? "log" = FunctionTable.standard.get? "log")
    (hlog10 : env.functions.get? "log10" = FunctionTable.standard.get? "log10")
    (hx : 0 < x) (hxone : x ≠ 1) (hb : 0 < b) (hbone : b ≠ 1) :
    (DivisionEnds (aboveOne b) (aboveOne x, 0) ∧
      (∀ k : Int, env.call "log" [.number x, .number b] = .ok (.number k) ↔ b ^ k = x) ∧
      (env.call "log" [.number x, .number b] = .ok (.apply "log" [.number x, .number b]) ↔
        ∀ k : Int, b ^ k ≠ x)) ∧
    DivisionEnds (aboveOne 10) (aboveOne x, 0) ∧
      (∀ k : Int, env.call "log10" [.number x] = .ok (.number k) ↔ 10 ^ k = x) ∧
      (env.call "log10" [.number x] = .ok (.apply "log10" [.number x]) ↔
        ∀ k : Int, 10 ^ k ≠ x) := by
  have hten : (0 : Rat) < 10 := by norm_num
  have htenone : (10 : Rat) ≠ 1 := by norm_num
  constructor
  · refine ⟨divisionEnds (one_lt_aboveOne hb hbone) _, ?_⟩
    apply call_eq_iff_of_integralLog? hx hxone hb hbone
    exact call_builtIn hexact hlog rfl (logarithm_number hx hxone hb hbone)
  · refine ⟨divisionEnds (one_lt_aboveOne hten htenone) _, ?_⟩
    apply call_eq_iff_of_integralLog? hx hxone hten htenone
    exact call_builtIn hexact hlog10 rfl (commonLogarithm_number hx hxone)

theorem call_log_hundredth :
    (DivisionEnds (aboveOne (1 / 10)) (aboveOne (1 / 100), 0) ∧
      standard.call "log" [.number (1 / 100), .number (1 / 10)] = .ok (.number (2 : Int))) ∧
    DivisionEnds (aboveOne 10) (aboveOne (1 / 100), 0) ∧
      standard.call "log10" [.number (1 / 100)] = .ok (.number (-2 : Int)) := by
  have hlogs := @call_log standard (1 / 100) (1 / 10) rfl rfl rfl (by norm_num) (by norm_num)
    (by norm_num) (by norm_num)
  rcases hlogs with ⟨⟨hends, hpower, -⟩, hends', hpower', -⟩
  exact ⟨⟨hends, (hpower 2).mpr (by norm_num)⟩, hends', (hpower' (-2)).mpr (by norm_num)⟩

end Environment

end ExactAlgebra
