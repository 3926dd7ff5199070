import ExactAlgebra.Proofs.Depth.Settles

/-!
# Outcomes and depth

A call that has an outcome within some depth of nested calls has it within one level more.
One induction on the depth shows it for all functions behind sums, products and powers.
-/

namespace ExactAlgebra.Reduce

variable {α β : Type} {outcome outcome' : Except Fault α} {next next' : α → Except Fault β}
  {mode : Mode} {fuel : Nat}

/-- Depth was lacking, or the outcome is that of a greater depth. -/
def Extends (outcome outcome' : Except Fault α) : Prop :=
  outcome = .error .exhausted ∨ outcome = outcome'

namespace Extends

theorem refl (outcome : Except Fault α) : Extends outcome outcome := .inr rfl

theorem exhausted : Extends (.error .exhausted) outcome := .inl rfl

theorem bind (h : Extends outcome outcome') (hnext : ∀ value, Extends (next value) (next' value)) :
    Extends (outcome >>= next) (outcome' >>= next') := by
  rcases h with rfl | rfl
  · exact .exhausted
  · cases outcome with
    | error fault => exact .refl _
    | ok value => exact hnext value

theorem ite {test : Prop} [Decidable test] {other other' : Except Fault α}
    (h : Extends outcome outcome') (hother : Extends other other') :
    Extends (if test then outcome else other) (if test then outcome' else other') := by
  split
  · exact h
  · exact hother

theorem foldlM {step step' : β → α → Except Fault β}
    (h : ∀ value item, Extends (step value item) (step' value item)) (items : List α) (start : β) :
    Extends (items.foldlM step start) (items.foldlM step' start) := by
  induction items generalizing start with
  | nil => exact .refl _
  | cons item rest ih => exact (h start item).bind ih

end Extends

/-! ## Sums -/

theorem extends_sums (fuel : Nat) :
    (∀ a b, Extends (combineTerms fuel a b) (combineTerms (fuel + 1) a b)) ∧
      ∀ total term, Extends (insertTerm fuel total term) (insertTerm (fuel + 1) total term) := by
  induction fuel with
  | zero => exact ⟨fun _ _ => .exhausted, fun _ _ => .exhausted⟩
  | succ fuel ih =>
      obtain ⟨hcombine, hinsert⟩ := ih
      refine ⟨fun a b => ?_, fun total term => ?_⟩
      · rw [combineTerms.eq_def (fuel + 1), combineTerms.eq_def (fuel + 1 + 1)]
        refine .ite (.refl _) (.ite (.refl _) ?_)
        split
        · exact .refl _
        · exact .ite (.ite (.foldlM (fun _ _ => hcombine _ _) _ _) (hinsert _ _)) (.refl _)
      · rw [insertTerm.eq_def (fuel + 1), insertTerm.eq_def (fuel + 1 + 1)]
        dsimp only
        split
        · split_ifs
          · exact .refl _
          · split
            · exact .refl _
            · exact (hcombine _ _).bind fun _ => .refl _
        · split
          · exact .refl _
          · refine (hcombine _ _).bind fun merged => ?_
            split_ifs
            · exact .refl _
            · exact hcombine _ _
            · exact .refl _

/-! ## Products and powers -/

/-- One more level of depth does not change the outcomes of the functions behind products and
powers. -/
structure Stable (mode : Mode) (fuel : Nat) : Prop where
  combineFactors : ∀ a b,
    Extends (combineFactors mode fuel a b) (combineFactors mode (fuel + 1) a b)
  multiplyContent : ∀ a b,
    Extends (multiplyContent mode fuel a b) (multiplyContent mode (fuel + 1) a b)
  insertFactor : ∀ total factor,
    Extends (insertFactor mode fuel total factor) (insertFactor mode (fuel + 1) total factor)
  insertRadical : ∀ total factor,
    Extends (insertRadical mode fuel total factor) (insertRadical mode (fuel + 1) total factor)
  distribute : ∀ a b, Extends (distribute mode fuel a b) (distribute mode (fuel + 1) a b)
  combinePowers : ∀ a b,
    Extends (combinePowers mode fuel a b) (combinePowers mode (fuel + 1) a b)
  multiplyPowers : ∀ p q,
    Extends (multiplyPowers mode fuel p q) (multiplyPowers mode (fuel + 1) p q)
  raiseTo : ∀ a b, Extends (raiseTo mode fuel a b) (raiseTo mode (fuel + 1) a b)
  raiseBase : ∀ base power,
    Extends (raiseBase mode fuel base power) (raiseBase mode (fuel + 1) base power)
  raiseFactors : ∀ coeff factors power, Extends (raiseFactors mode fuel coeff factors power)
    (raiseFactors mode (fuel + 1) coeff factors power)
  expandPower : ∀ base n,
    Extends (expandPower mode fuel base n) (expandPower mode (fuel + 1) base n)
  numberPower : ∀ b p, Extends (numberPower mode fuel b p) (numberPower mode (fuel + 1) b p)
  exponential : ∀ base exponent,
    Extends (exponential mode fuel base exponent) (exponential mode (fuel + 1) base exponent)
  buildProduct : ∀ coefficient factors extras,
    Extends (buildProduct mode fuel coefficient factors extras)
      (buildProduct mode (fuel + 1) coefficient factors extras)

theorem stable_zero : Stable mode 0 := by
  constructor <;> intros <;> exact .exhausted

theorem extends_combineFactors (ih : Stable mode fuel) (a b : Expr) :
    Extends (combineFactors mode (fuel + 1) a b) (combineFactors mode (fuel + 1 + 1) a b) := by
  rw [combineFactors.eq_def mode (fuel + 1), combineFactors.eq_def mode (fuel + 1 + 1)]
  dsimp only
  split_ifs
  · exact .refl _
  all_goals
    split
    · exact .refl _
    · split
      · exact .refl _
      · exact (ih.multiplyContent _ _).bind fun _ => .refl _

theorem extends_multiplyContent (ih : Stable mode fuel) (a b : Expr) :
    Extends (multiplyContent mode (fuel + 1) a b) (multiplyContent mode (fuel + 1 + 1) a b) := by
  rw [multiplyContent.eq_def mode (fuel + 1), multiplyContent.eq_def mode (fuel + 1 + 1)]
  dsimp only
  split
  · exact .foldlM (fun _ _ => ih.combineFactors _ _) _ _
  · exact ih.insertFactor _ _
  · exact ih.insertFactor _ _
  · split_ifs
    · exact ih.distribute _ _
    · exact ih.combinePowers _ _
    · split
      · exact (Extends.refl _).bind fun _ => ih.buildProduct _ _ _
      · exact .refl _

theorem extends_insertFactor (ih : Stable mode fuel) (total factor : Expr) :
    Extends (insertFactor mode (fuel + 1) total factor)
      (insertFactor mode (fuel + 1 + 1) total factor) := by
  rw [insertFactor.eq_def mode (fuel + 1), insertFactor.eq_def mode (fuel + 1 + 1)]
  dsimp only
  split_ifs
  · exact ih.distribute _ _
  · exact ih.insertRadical _ _
  · split
    · exact .refl _
    · exact (ih.combinePowers _ _).bind fun _ => ih.combineFactors _ _

theorem extends_insertRadical (ih : Stable mode fuel) (total factor : Expr) :
    Extends (insertRadical mode (fuel + 1) total factor)
      (insertRadical mode (fuel + 1 + 1) total factor) := by
  rw [insertRadical.eq_def mode (fuel + 1), insertRadical.eq_def mode (fuel + 1 + 1)]
  exact (Extends.refl _).bind fun _ => .foldlM (fun _ _ => ih.combineFactors _ _) _ _

theorem extends_distribute (ih : Stable mode fuel) (a b : Expr) :
    Extends (distribute mode (fuel + 1) a b) (distribute mode (fuel + 1 + 1) a b) := by
  rw [distribute.eq_def mode (fuel + 1), distribute.eq_def mode (fuel + 1 + 1)]
  dsimp only
  split
  all_goals first
    | exact .refl _
    | exact .foldlM (fun _ _ => (ih.combineFactors _ _).bind fun _ => .refl _) _ _

theorem extends_multiplyPowers (ih : Stable mode fuel) (p q : Exponent) :
    Extends (multiplyPowers mode (fuel + 1) p q) (multiplyPowers mode (fuel + 1 + 1) p q) := by
  rw [multiplyPowers.eq_def mode (fuel + 1), multiplyPowers.eq_def mode (fuel + 1 + 1)]
  dsimp only
  split
  · exact .refl _
  · exact (ih.combineFactors _ _).bind fun _ => .refl _

theorem extends_raiseTo (ih : Stable mode fuel) (a b : Expr) :
    Extends (raiseTo mode (fuel + 1) a b) (raiseTo mode (fuel + 1 + 1) a b) := by
  rw [raiseTo.eq_def mode (fuel + 1), raiseTo.eq_def mode (fuel + 1 + 1)]
  dsimp only
  split
  · exact ih.numberPower _ _
  · split_ifs
    · exact .refl _
    · exact (ih.multiplyPowers _ _).bind fun _ => (ih.raiseBase _ _).bind fun _ => .refl _
    · exact (ih.multiplyPowers _ _).bind fun _ => (ih.raiseBase _ _).bind fun _ =>
        (ih.numberPower _ _).bind fun _ => ih.combineFactors _ _
  · exact ih.exponential _ _
  · split_ifs
    · exact (ih.multiplyPowers _ _).bind fun _ => (ih.raiseBase _ _).bind fun _ => .refl _
    · exact (ih.multiplyPowers _ _).bind fun _ => (ih.raiseBase _ _).bind fun _ =>
        (ih.exponential _ _).bind fun _ => ih.combineFactors _ _

theorem extends_raiseBase (ih : Stable mode fuel) (base : Expr) (power : Exponent) :
    Extends (raiseBase mode (fuel + 1) base power) (raiseBase mode (fuel + 1 + 1) base power) := by
  rw [raiseBase.eq_def mode (fuel + 1), raiseBase.eq_def mode (fuel + 1 + 1)]
  dsimp only
  split
  · exact ih.exponential _ _
  · split
    · exact ih.numberPower _ _
    · refine .ite (.refl _) (.ite (.refl _) ?_)
      split
      · exact .refl _
      · exact .refl _
      · exact ih.raiseFactors _ _ _
      · refine .ite (.ite ((ih.expandPower _ _).bind fun _ => ?_) ?_) (.refl _)
        all_goals exact .ite (.refl _) (ih.distribute _ _)

theorem extends_raiseFactors (ih : Stable mode fuel) (coeff : Rat) (factors : List Expr)
    (power : Exponent) : Extends (raiseFactors mode (fuel + 1) coeff factors power)
      (raiseFactors mode (fuel + 1 + 1) coeff factors power) := by
  rw [raiseFactors.eq_def mode (fuel + 1), raiseFactors.eq_def mode (fuel + 1 + 1)]
  exact .foldlM (fun _ _ => (ih.multiplyPowers _ _).bind fun _ => (ih.raiseBase _ _).bind fun _ =>
    ih.combineFactors _ _) _ _

theorem extends_numberPower (ih : Stable mode fuel) (b p : Rat) :
    Extends (numberPower mode (fuel + 1) b p) (numberPower mode (fuel + 1 + 1) b p) := by
  rw [numberPower.eq_def mode (fuel + 1), numberPower.eq_def mode (fuel + 1 + 1)]
  dsimp only
  refine .ite (.refl _) (.ite (.refl _) (.ite (.refl _) (.ite ?_ (.ite (.refl _) (.ite ?_ ?_)))))
  · refine (ih.numberPower _ _).bind fun _ => (Extends.refl _).bind fun _ => ?_
    split
    · exact .refl _
    · exact ih.combineFactors _ _
  · exact (ih.numberPower _ _).bind fun _ => (ih.numberPower _ _).bind fun _ =>
      ih.combineFactors _ _
  · exact (Extends.refl _).bind fun _ => ih.buildProduct _ _ _

theorem extends_exponential (ih : Stable mode fuel) (base exponent : Expr) :
    Extends (exponential mode (fuel + 1) base exponent)
      (exponential mode (fuel + 1 + 1) base exponent) := by
  rw [exponential.eq_def mode (fuel + 1), exponential.eq_def mode (fuel + 1 + 1)]
  dsimp only
  split
  · split_ifs
    · exact .refl _
    · exact .refl _
    · exact (Extends.refl _).bind fun _ => (ih.raiseBase _ _).bind fun _ =>
        (ih.numberPower _ _).bind fun _ => ih.combineFactors _ _
  · exact ih.raiseFactors _ _ _
  · exact .refl _

theorem stable_succ (ih : Stable mode fuel) : Stable mode (fuel + 1) where
  combineFactors := extends_combineFactors ih
  multiplyContent := extends_multiplyContent ih
  insertFactor := extends_insertFactor ih
  insertRadical := extends_insertRadical ih
  distribute := extends_distribute ih
  combinePowers a b := by
    rw [combinePowers.eq_def mode (fuel + 1), combinePowers.eq_def mode (fuel + 1 + 1)]
    exact (Extends.refl _).bind fun _ => (ih.raiseBase _ _).bind fun _ => .refl _
  multiplyPowers := extends_multiplyPowers ih
  raiseTo := extends_raiseTo ih
  raiseBase := extends_raiseBase ih
  raiseFactors := extends_raiseFactors ih
  expandPower base n := by
    rw [expandPower.eq_def mode (fuel + 1), expandPower.eq_def mode (fuel + 1 + 1)]
    exact .foldlM (fun _ _ => ih.distribute _ _) _ _
  numberPower := extends_numberPower ih
  exponential := extends_exponential ih
  buildProduct coefficient factors extras := by
    rw [buildProduct.eq_def mode (fuel + 1), buildProduct.eq_def mode (fuel + 1 + 1)]
    exact .foldlM (fun _ _ => ih.combineFactors _ _) _ _

theorem stable (mode : Mode) (fuel : Nat) : Stable mode fuel := by
  induction fuel with
  | zero => exact stable_zero
  | succ fuel ih => exact stable_succ ih

end ExactAlgebra.Reduce
