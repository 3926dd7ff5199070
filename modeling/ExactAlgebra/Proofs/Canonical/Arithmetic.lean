import ExactAlgebra.Arithmetic
import ExactAlgebra.Proofs.Canonical.Closure

/-!
# Arithmetic on canonical expressions

Sums, differences and negatives of canonical expressions are canonical, and so are
their products, quotients, powers and inverses whenever there are any.
-/

namespace ExactAlgebra.Arithmetic

open Reduce

/-! ## Depth -/

/-- The outcome of a run is that at some depth, which is not small. -/
theorem exists_settled_eq (run : Nat → Except Fault Expr) :
    ∃ fuel, settled run = run (fuel + 31) := by
  have hdepth : ∀ depth, firstDepth ≤ depth → ∃ fuel, run depth = run (fuel + 31) :=
    fun depth hle => ⟨depth - 31, by rw [Nat.sub_add_cancel (le_trans (by decide) hle)]⟩
  unfold settled
  split
  next => exact hdepth _ (le_max_left _ _)
  next => exact hdepth _ le_rfl

theorem exists_multiply_eq (mode : Mode) (a b : Expr) :
    ∃ fuel, multiply mode a b = combineFactors mode (fuel + 31) a b :=
  exists_settled_eq _

theorem exists_pow_eq (mode : Mode) (a b : Expr) : ∃ fuel, pow mode a b =
    guarded mode (raiseTo mode (fuel + 31) a b) (.ok (unevaluatedPower a b)) := by
  obtain ⟨fuel, hfuel⟩ := exists_settled_eq fun depth => raiseTo mode depth a b
  exact ⟨fuel, by rw [pow, hfuel]⟩

/-! ## Canonical operands -/

theorem guarded_ok (mode : Mode) (node : Expr) (fallback : Except Fault Expr) :
    guarded mode (.ok node) fallback = .ok node := rfl

variable {mode : Mode} {rules : Discipline} {a b : Expr}

theorem canonical_negate (hrules : rules.Admissible mode) (ha : Canonical rules a) :
    Canonical rules (negate a) :=
  canonical_scale hrules.constant (by norm_num) ha

theorem totals_add (hrules : rules.Admissible mode) (ha : Canonical rules a)
    (hb : Canonical rules b) : Totals rules (add a b) (a.linear + b.linear) :=
  totals_plus hrules.constant ha hb

theorem linear_negate (a : Expr) : (negate a).linear = -a.linear := by
  rw [negate, linear_scale, neg_smul, one_smul]

theorem totals_subtract (hrules : rules.Admissible mode) (ha : Canonical rules a)
    (hb : Canonical rules b) : Totals rules (subtract a b) (a.linear - b.linear) := by
  rw [sub_eq_add_neg, ← linear_negate]
  exact totals_plus hrules.constant ha (canonical_negate hrules hb)

theorem yields_multiply (hrules : rules.Admissible mode) (hmode : mode.numeric = false)
    (ha : Canonical rules a) (hb : Canonical rules b) : Yields rules (multiply mode a b) := by
  obtain ⟨fuel, hfuel⟩ := exists_multiply_eq mode a b
  exact hfuel ▸ (closed hrules hmode _).combineFactors ha hb

theorem yields_guarded {outcome fallback : Except Fault Expr} (houtcome : Yields rules outcome)
    (hfallback : mode.suppressErrors = true → Yields rules fallback) :
    Yields rules (guarded mode outcome fallback) := by
  unfold guarded
  split
  next =>
    split_ifs with hguard
    · exact hfallback (Bool.and_eq_true_iff.mp hguard).1
    · exact .error _
  next node => exact .ok (houtcome node rfl)

theorem canonical_unevaluatedPower (ha : Canonical rules a) (hb : Canonical rules b)
    (hcall : rules.call "pow" [a, b]) : Canonical rules (unevaluatedPower a b) :=
  .call one_ne_zero one_ne_zero hcall (by simpa using ⟨ha, hb⟩)

theorem yields_quotient (hrules : rules.Admissible mode) (hmode : mode.numeric = false)
    (ha : Canonical rules a) (hb : Canonical rules b) : Yields rules (quotient mode a b) := by
  unfold quotient
  split_ifs
  · exact .bind fun value _ => .ok (.number value)
  · obtain ⟨fuel, hfuel⟩ := exists_settled_eq fun depth => raiseTo mode depth b (.number (-1))
    rw [hfuel]
    exact .bind fun inverse hinverse => yields_multiply hrules hmode ha
      ((closed hrules hmode _).raiseTo hb (.number _) inverse hinverse)

/-- Suppressed faults answer with calls, which the discipline has to admit. -/
theorem yields_divide (hrules : rules.Admissible mode) (hmode : mode.numeric = false)
    (hcall : mode.suppressErrors = true → rules.call "pow" [b, .number (-1)])
    (ha : Canonical rules a) (hb : Canonical rules b) : Yields rules (divide mode a b) :=
  yields_guarded (yields_quotient hrules hmode ha hb) fun hsuppress =>
    yields_multiply hrules hmode ha
      (canonical_unevaluatedPower hb (.number _) (hcall hsuppress))

theorem yields_pow (hrules : rules.Admissible mode) (hmode : mode.numeric = false)
    (hcall : mode.suppressErrors = true → rules.call "pow" [a, b])
    (ha : Canonical rules a) (hb : Canonical rules b) : Yields rules (pow mode a b) := by
  obtain ⟨fuel, hfuel⟩ := exists_pow_eq mode a b
  rw [hfuel]
  exact yields_guarded ((closed hrules hmode _).raiseTo ha hb) fun hsuppress =>
    .ok (canonical_unevaluatedPower ha hb (hcall hsuppress))

theorem yields_invert (hrules : rules.Admissible mode) (hmode : mode.numeric = false)
    (hcall : mode.suppressErrors = true → rules.call "pow" [a, .number (-1)])
    (ha : Canonical rules a) : Yields rules (invert mode a) :=
  yields_pow hrules hmode hcall ha (.number _)

/-- In exact mode the operations take canonical expressions to canonical expressions. -/
theorem canonical_operations {mode : Mode} (hmode : mode.numeric = false) {a b : Expr}
    (ha : Canonical .free a) (hb : Canonical .free b) :
    Canonical .free (negate a) ∧
      (∀ outcome ∈ [add a b, subtract a b, multiply mode a b, divide mode a b, pow mode a b,
        invert mode a], ∀ node, outcome = .ok node → Canonical .free node) ∧
      (∃ node, add a b = .ok node) ∧ ∃ node, subtract a b = .ok node := by
  have hrules := Discipline.free_admissible mode
  obtain ⟨total, hadd, htotal, -⟩ := totals_add hrules ha hb
  obtain ⟨difference, hsubtract, hdifference, -⟩ := totals_subtract hrules ha hb
  refine ⟨canonical_negate hrules ha, ?_, ⟨total, hadd⟩, ⟨difference, hsubtract⟩⟩
  simp only [List.forall_mem_cons, List.not_mem_nil, false_imp_iff, implies_true, and_true]
  refine ⟨?_, ?_, yields_multiply hrules hmode ha hb,
    yields_divide hrules hmode (fun _ => trivial) ha hb,
    yields_pow hrules hmode (fun _ => trivial) ha hb,
    yields_invert hrules hmode (fun _ => trivial) ha⟩
  · exact hadd ▸ Yields.ok htotal
  · exact hsubtract ▸ Yields.ok hdifference

theorem canonical_operations_variable_and_sum :
    let x := Expr.named "x"
    let sum := Expr.composite 1 1 [(x.additiveKey, x), (Expr.constantMark, .number 1)]
    Mode.exact.numeric = false ∧ Canonical .free x ∧ Canonical .free sum ∧
      Canonical .free (negate x) ∧
      (∀ outcome ∈ [add x sum, subtract x sum, multiply .exact x sum, divide .exact x sum,
        pow .exact x sum, invert .exact x], ∀ node, outcome = .ok node →
          Canonical .free node) ∧
      (∃ node, add x sum = .ok node) ∧ ∃ node, subtract x sum = .ok node := by
  intro x sum
  have hx : Canonical .free x := .symbol one_ne_zero one_ne_zero trivial
  have hsum : Canonical .free sum := .binomial trivial trivial
  exact ⟨rfl, hx, hsum, canonical_operations rfl hx hsum⟩

end ExactAlgebra.Arithmetic
