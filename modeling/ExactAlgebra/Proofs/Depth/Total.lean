import ExactAlgebra.Proofs.Depth.Power
import ExactAlgebra.Proofs.Depth.Stable

/-!
# Termination

The functions behind sums, products and powers call each other with one level of depth
less.  On canonical arguments each call has a depth of its own: with that depth or more it
has an outcome, which is always the same, and with less it lacks depth.  So the depth of a
call is a measure that decreases from a call to the calls that it makes.
-/

namespace ExactAlgebra

open ExactAlgebra.Expr Reduce

/-! ## Calls -/

/-- A call of a function behind sums, products and powers. -/
inductive Call where
  | combineTerms (a b : Expr)
  | insertTerm (total term : Expr)
  | combineFactors (a b : Expr)
  | multiplyContent (a b : Expr)
  | insertFactor (total factor : Expr)
  | insertRadical (total factor : Expr)
  | distribute (a b : Expr)
  | combinePowers (a b : Expr)
  | raiseTo (a b : Expr)
  | raiseBase (base : Expr) (power : Exponent)
  | expandPower (base : Expr) (n : Nat)
  | numberPower (value p : Rat)
  | exponential (base exponent : Expr)
  | buildProduct (coefficient : Rat) (roots : List (Rat × Rat)) (extras : List Expr)
  | collapse (node : Expr)

namespace Call

/-- The outcome of a call within a depth of nested calls. -/
def run (mode : Mode) : Call → Nat → Except Fault Expr
  | combineTerms a b, depth => Reduce.combineTerms depth a b
  | insertTerm total term, depth => Reduce.insertTerm depth total term
  | combineFactors a b, depth => Reduce.combineFactors mode depth a b
  | multiplyContent a b, depth => Reduce.multiplyContent mode depth a b
  | insertFactor total factor, depth => Reduce.insertFactor mode depth total factor
  | insertRadical total factor, depth => Reduce.insertRadical mode depth total factor
  | distribute a b, depth => Reduce.distribute mode depth a b
  | combinePowers a b, depth => Reduce.combinePowers mode depth a b
  | raiseTo a b, depth => Reduce.raiseTo mode depth a b
  | raiseBase base power, depth => Reduce.raiseBase mode depth base power
  | expandPower base n, depth => Reduce.expandPower mode depth base n
  | numberPower value p, depth => Reduce.numberPower mode depth value p
  | exponential base exponent, depth => Reduce.exponential mode depth base exponent
  | buildProduct coefficient roots extras, depth =>
      Reduce.buildProduct mode depth coefficient (roots.map radicalOf) extras
  | collapse node, _ => .ok (Reduce.collapse node)

/-- The arguments are canonical, and of the classes that the function is for. -/
inductive IsCanonical : Call → Prop
  | combineTerms {a b : Expr} (ha : Canonical .free a) (hb : Canonical .free b) :
      IsCanonical (combineTerms a b)
  | insertTerm {total term : Expr} (htotal : Canonical .free total)
      (hsum : total.isExpandedSum = true) (hterm : Canonical .free term)
      (hnot : term.isExpandedSum = false) : IsCanonical (insertTerm total term)
  | combineFactors {a b : Expr} (ha : Canonical .free a) (hb : Canonical .free b) :
      IsCanonical (combineFactors a b)
  | multiplyContent {a b : Expr} (ha : Canonical .free a) (hb : Canonical .free b)
      (hacoeff : a.coeff = 1) (hbcoeff : b.coeff = 1) (hanumber : a.isNumber = false)
      (hbnumber : b.isNumber = false) : IsCanonical (multiplyContent a b)
  | insertFactor {total factor : Expr} (htotal : Canonical .free total)
      (hproduct : total.group = .product) (hfactor : Canonical .free factor)
      (hcoeff : factor.coeff = 1) (hnumber : factor.isNumber = false)
      (hgroup : factor.group ≠ .product) : IsCanonical (insertFactor total factor)
  | insertRadical {total factor : Expr} (htotal : Canonical .free total)
      (hproduct : total.group = .product) (hfactor : Canonical .free factor)
      (hradical : factor.group = .radical) : IsCanonical (insertRadical total factor)
  | distribute {a b : Expr} (ha : Canonical .free a) (hb : Canonical .free b) :
      IsCanonical (distribute a b)
  | combinePowers {a b : Expr} (ha : Canonical .free a) (hb : Canonical .free b) :
      IsCanonical (combinePowers a b)
  | raiseTo {a b : Expr} (ha : Canonical .free a) (hb : Canonical .free b) :
      IsCanonical (raiseTo a b)
  | raiseBase {base : Expr} {power : Exponent} (hbase : Canonical .free base)
      (hshape : base.IsBase) (hpower : Canonical.IsExponent .free power) :
      IsCanonical (raiseBase base power)
  | expandPower {base : Expr} {n : Nat} (hbase : Canonical .free base) :
      IsCanonical (expandPower base n)
  | numberPower (value p : Rat) : IsCanonical (numberPower value p)
  | exponential {base exponent : Expr} (hbase : Canonical .free base) (hshape : base.IsBase)
      (hexponent : Canonical .free exponent) (hnumber : exponent.isNumber = false) :
      IsCanonical (exponential base exponent)
  | buildProduct {coefficient : Rat} {roots : List (Rat × Rat)} {extras : List Expr}
      (hcoefficient : coefficient ≠ 0) (hroots : ∀ root ∈ roots, IsRadical root.1 root.2)
      (hdistinct : (roots.map Prod.fst).Nodup) (hextras : ∀ extra ∈ extras, Canonical .free extra) :
      IsCanonical (buildProduct coefficient roots extras)
  | collapse {node : Expr} (hnode : Canonical .free node) : IsCanonical (collapse node)

end Call

/-! ## Outcomes -/

namespace Reduce

variable {α β : Type} {run : Nat → Except Fault α} {next : Nat → α → Except Fault β}

/-- Depths that are large enough give one outcome, which does not lack depth. -/
def Halts (run : Nat → Except Fault α) : Prop :=
  ∃ outcome, Settles run outcome ∧ outcome ≠ .error .exhausted

namespace Halts

theorem const {outcome : Except Fault α} (h : outcome ≠ .error .exhausted) :
    Halts fun _ => outcome :=
  ⟨outcome, .const outcome, h⟩

theorem succ (hzero : run 0 = .error .exhausted) (h : Halts fun depth => run (depth + 1)) :
    Halts run := by
  obtain ⟨outcome, hsettles, hne⟩ := h
  exact ⟨outcome, hsettles.succ hzero, hne⟩

theorem of_reaches {property : α → Prop} (h : Reaches run property) : Halts run := by
  obtain ⟨value, hsettles, -⟩ := h
  exact ⟨.ok value, hsettles, by simp⟩

/-- A run in two parts, the second of which starts at a result of the first. -/
theorem bind (h : Halts run)
    (hnext : ∀ value, (∃ depth, run depth = .ok value) → Halts fun depth => next depth value) :
    Halts fun depth => run depth >>= next depth := by
  obtain ⟨outcome, hsettles, hne⟩ := h
  cases outcome with
  | error fault => exact ⟨.error fault, hsettles.error_bind, by simpa using hne⟩
  | ok value =>
      obtain ⟨outcome, houtcome, hne⟩ := hnext value hsettles.late.exists
      exact ⟨outcome, hsettles.bind houtcome, hne⟩

end Halts

/-! ## Sums -/

variable {mode : Mode} {rules : Discipline} {a b total term base : Expr} {power : Exponent}

theorem exists_combineTerms (ha : Canonical .free a) (hb : Canonical .free b) :
    ∃ node, combineTerms 7 a b = .ok node := by
  obtain ⟨node, hok, -⟩ := totals_combineTerms (fun _ _ => trivial) 0 ha hb
  exact ⟨node, hok⟩

/-- Zero joins a sum as its constant term. -/
theorem exists_insertTerm_zero (htotal : Canonical rules total)
    (hsum : total.isExpandedSum = true) :
    ∃ node, insertTerm 2 total (.number 0) = .ok node := by
  have hkey : (Expr.number 0).additiveKey = constantMark := rfl
  cases htotal <;> simp only [isExpandedSum, isSum, Bool.false_and, Bool.false_eq_true] at hsum
  case polynomial coeff power terms hshape hsumrules hslots hterms =>
    have hne : (Expr.number 0).additiveKey ≠ (Expr.polynomial coeff power terms).additiveKey := by
      intro heq
      have hnumber := isNumber_of_additiveKey
        (Canonical.polynomial hshape hsumrules hslots hterms) (heq.symm.trans hkey)
      cases hnumber
    exact ⟨_, by rw [insertTerm, if_pos hne]⟩
  case composite coeff power terms hshape hsumrules hslots hterms =>
    rw [insertTerm.eq_def]
    simp only [hkey, Expr.slots]
    cases hfind : Slots.find? constantMark terms with
    | none => exact ⟨_, rfl⟩
    | some old =>
        have hmem := Slots.mem_of_find? hfind
        obtain ⟨value, rfl⟩ :=
          exists_eq_number (isNumber_of_additiveKey (hterms _ hmem) (hslots.key _ hmem).symm)
        have hmerge : ∃ value', combineTerms 1 (.number value) (.number 0) =
            .ok (.number value') := by
          cases hzero : (Expr.number value).isZero with
          | true => exact ⟨0, combineTerms_of_isZero 0 hzero⟩
          | false => exact ⟨value, combineTerms_of_isZero_right 0 hzero rfl⟩
        obtain ⟨value', hmerge⟩ := hmerge
        simp only [hmerge, bind, Except.bind]
        split_ifs with hzero hmoved
        · exact ⟨_, rfl⟩
        · rcases hmoved with hgroup | hkey'
          · cases hgroup
          · exact absurd rfl hkey'
        · exact ⟨_, rfl⟩

theorem exists_insertTerm (htotal : Canonical .free total) (hsum : total.isExpandedSum = true)
    (hterm : Canonical .free term) (hnot : term.isExpandedSum = false) :
    ∃ depth node, insertTerm depth total term = .ok node := by
  cases hzero : term.isZero with
  | true =>
      obtain ⟨value, rfl⟩ : ∃ value, term = .number value := by cases term <;> simp_all [isZero]
      obtain rfl : value = 0 := by simpa [isZero] using hzero
      exact ⟨2, exists_insertTerm_zero htotal hsum⟩
  | false =>
      obtain ⟨node, hok⟩ := exists_combineTerms htotal hterm
      rw [(combineTerms_of_isExpandedSum 6 hsum hnot hzero).1] at hok
      exact ⟨6, node, hok⟩

/-! ## Products and powers -/

/-- The product with a sum, or with the factors of a product; other operands have no terms. -/
theorem halts_distribute (hmode : mode.numeric = false) (ha : Canonical .free a)
    (hb : Canonical .free b) : Halts fun depth => distribute mode depth a b := by
  have hrules := Discipline.free_admissible mode
  refine .succ rfl ?_
  obtain ⟨sum, other, horder, hterms | hnone⟩ := distribute_cases mode a b
  · obtain ⟨hsum, hother⟩ : Canonical .free sum ∧ Canonical .free other := by
      rcases horder with ⟨rfl, rfl⟩ | ⟨rfl, rfl⟩
      · exact ⟨ha, hb⟩
      · exact ⟨hb, ha⟩
    simp only [hterms]
    suffices Reaches (fun depth => (Slots.children sum.slots).foldlM (fun total term => do
        plus total (← combineFactors mode depth term other)) (.number 0)) (Canonical .free) from
      .of_reaches this
    refine .foldlM (fun _ => Canonical .free) (.number 0)
      fun before term after hsplit total htotal => ?_
    have hmem : term ∈ Slots.children sum.slots := by simp [hsplit]
    obtain ⟨slot, hslot, rfl⟩ := List.mem_map.mp hmem
    refine (reaches_multiply hrules hmode (hsum.slots slot hslot) hother).bind
      fun product hproduct => ?_
    obtain ⟨total', hplus, htotal', -⟩ := totals_plus hrules.constant htotal hproduct
    rw [hplus]
    exact .ok htotal'
  · simp only [hnone]
    exact .const (by simp)

theorem halts_raiseBase (hmode : mode.numeric = false) (hbase : Canonical .free base)
    (hshape : base.IsBase) (hpower : Canonical.IsExponent .free power) :
    Halts fun depth => raiseBase mode depth base power := by
  by_cases h : HasPower base power
  · exact .of_reaches
      (reaches_raiseBase (Discipline.free_admissible mode) hmode hbase hshape hpower h)
  · obtain ⟨hzero, p, rfl, hp⟩ : base = .number 0 ∧ ∃ p, power = .rational p ∧ ¬ 0 < p := by
      simpa [HasPower] using h
    subst hzero
    refine .succ rfl ⟨_, settles_zeroPower (not_lt.mp hp), ?_⟩
    unfold zeroFault
    split_ifs <;> simp

theorem halts_numberPower (hmode : mode.numeric = false) (value p : Rat) :
    Halts fun depth => numberPower mode depth value p := by
  by_cases h : value = 0 → 0 < p
  · exact .of_reaches (reaches_constantPower (Discipline.free_admissible mode) hmode h)
  · obtain ⟨rfl, hp⟩ := Classical.not_imp.mp h
    refine ⟨_, settles_zeroPower (not_lt.mp hp), ?_⟩
    unfold zeroFault
    split_ifs <;> simp

theorem halts_combinePowers (hmode : mode.numeric = false) (ha : Canonical .free a)
    (hb : Canonical .free b) : Halts fun depth => combinePowers mode depth a b := by
  have hrules := Discipline.free_admissible mode
  obtain ⟨power, hadd, hpower, -⟩ := exists_addExponents_constant hrules ha.exponent hb.exponent
  refine .succ rfl ?_
  simp only [combinePowers, hadd]
  exact (halts_raiseBase hmode (ha.baseOf hrules) ha.isBase_baseOf hpower).bind
    fun raised _ => .const (by simp [pure, Except.pure])

theorem halts_raiseTo (hmode : mode.numeric = false) (ha : Canonical .free a)
    (hb : Canonical .free b) : Halts fun depth => raiseTo mode depth a b := by
  by_cases h : IsUndefined a b
  · obtain ⟨p, rfl, rfl, hp⟩ := h
    refine ⟨_, settles_raiseTo_zero hp, ?_⟩
    unfold zeroFault
    split_ifs <;> simp
  · exact .of_reaches (reaches_raiseTo (Discipline.free_admissible mode) hmode ha hb h)

/-- Any number of factors, of which each is one more sum or product. -/
theorem halts_expandPower (hmode : mode.numeric = false) (hbase : Canonical .free base) (n : Nat) :
    Halts fun depth => expandPower mode depth base n := by
  have hrules := Discipline.free_admissible mode
  refine .succ rfl ?_
  simp only [expandPower]
  generalize hitems : List.range (n - 1) = items
  suffices ∀ start, Canonical .free start → Halts fun depth => items.foldlM
      (fun result _ => distribute mode depth result base) start from this base hbase
  clear hitems
  induction items with
  | nil => exact fun start _ => .const (by simp)
  | cons item rest ih =>
      intro start hstart
      refine (halts_distribute hmode hstart hbase).bind fun result hresult => ?_
      obtain ⟨depth, hdepth⟩ := hresult
      exact ih result ((closed hrules hmode depth).distribute hstart hbase result hdepth)

theorem halts_buildProduct (hmode : mode.numeric = false) {coefficient : Rat}
    {roots : List (Rat × Rat)} {extras : List Expr} (hcoefficient : coefficient ≠ 0)
    (hroots : ∀ root ∈ roots, IsRadical root.1 root.2) (hdistinct : (roots.map Prod.fst).Nodup)
    (hextras : ∀ extra ∈ extras, Canonical .free extra) :
    Halts fun depth => buildProduct mode depth coefficient (roots.map radicalOf) extras := by
  refine .succ rfl ?_
  simp only [buildProduct]
  exact .of_reaches (reaches_foldlM_multiply (Discipline.free_admissible mode) hmode
    (canonical_productOf Discipline.free_hereditary hcoefficient hroots hdistinct trivial) hextras)

/-- Runs that do not change with more depth have a least depth that is enough. -/
theorem exists_least {α : Type} {run : Nat → Except Fault α}
    (hextends : ∀ depth, Extends (run depth) (run (depth + 1)))
    (h : ∃ depth, run depth ≠ .error .exhausted) :
    ∃ least outcome, outcome ≠ .error .exhausted ∧
      ∀ depth, run depth = if least ≤ depth then outcome else .error .exhausted := by
  classical
  refine ⟨Nat.find h, run (Nat.find h), Nat.find_spec h, fun depth => ?_⟩
  split_ifs with hle
  · induction depth, hle using Nat.le_induction with
    | base => rfl
    | succ depth hle ih =>
        have hne : run depth ≠ .error .exhausted := ih ▸ Nat.find_spec h
        exact ((hextends depth).resolve_left hne).symm.trans ih
  · exact not_not.mp (Nat.find_min h (not_le.mp hle))

end Reduce

namespace Call

variable {mode : Mode} {call : Call}

theorem run_extends (mode : Mode) (call : Call) (depth : Nat) :
    Extends (call.run mode depth) (call.run mode (depth + 1)) := by
  have h := stable mode depth
  cases call with
  | combineTerms a b => exact (extends_sums depth).1 a b
  | insertTerm total term => exact (extends_sums depth).2 total term
  | combineFactors a b => exact h.combineFactors a b
  | multiplyContent a b => exact h.multiplyContent a b
  | insertFactor total factor => exact h.insertFactor total factor
  | insertRadical total factor => exact h.insertRadical total factor
  | distribute a b => exact h.distribute a b
  | combinePowers a b => exact h.combinePowers a b
  | raiseTo a b => exact h.raiseTo a b
  | raiseBase base power => exact h.raiseBase base power
  | expandPower base n => exact h.expandPower base n
  | numberPower value p => exact h.numberPower value p
  | exponential base exponent => exact h.exponential base exponent
  | buildProduct coefficient roots extras => exact h.buildProduct coefficient _ extras
  | collapse node => exact .refl _

/-- Every canonical call has an outcome at some depth. -/
theorem exists_run_ne_exhausted (hmode : mode.numeric = false) (h : call.IsCanonical) :
    ∃ depth, call.run mode depth ≠ .error .exhausted := by
  have hrules := Discipline.free_admissible mode
  have hhalts {run : Nat → Except Fault Expr} (h : Halts run) :
      ∃ depth, run depth ≠ .error .exhausted := by
    obtain ⟨outcome, hsettles, hne⟩ := h
    obtain ⟨depth, hdepth⟩ := hsettles.late.exists
    exact ⟨depth, hdepth ▸ hne⟩
  cases h with
  | combineTerms ha hb =>
      obtain ⟨node, hok⟩ := exists_combineTerms ha hb
      exact ⟨7, by simp [run, hok]⟩
  | insertTerm htotal hsum hterm hnot =>
      obtain ⟨depth, node, hok⟩ := exists_insertTerm htotal hsum hterm hnot
      exact ⟨depth, by simp [run, hok]⟩
  | combineFactors ha hb => exact hhalts (.of_reaches (reaches_multiply hrules hmode ha hb))
  | multiplyContent ha hb hacoeff hbcoeff hanumber hbnumber =>
      exact hhalts (.of_reaches (reaches_multiplyContent hrules hmode (multiplies hrules hmode _)
        ha hb hacoeff hbcoeff hanumber hbnumber))
  | insertFactor htotal hproduct hfactor hcoeff hnumber hgroup =>
      exact hhalts (.of_reaches (reaches_insertFactor hrules hmode (multiplies hrules hmode _)
        htotal hproduct hfactor hcoeff hnumber hgroup))
  | insertRadical htotal hproduct hfactor hradical =>
      exact hhalts (.of_reaches (reaches_insertRadical hrules hmode (multiplies hrules hmode _)
        le_rfl htotal hproduct hfactor hradical))
  | distribute ha hb => exact hhalts (halts_distribute hmode ha hb)
  | combinePowers ha hb => exact hhalts (halts_combinePowers hmode ha hb)
  | raiseTo ha hb => exact hhalts (halts_raiseTo hmode ha hb)
  | raiseBase hbase hshape hpower => exact hhalts (halts_raiseBase hmode hbase hshape hpower)
  | expandPower hbase => exact hhalts (halts_expandPower hmode hbase _)
  | numberPower value p => exact hhalts (halts_numberPower hmode value p)
  | exponential hbase hshape hexponent hnumber =>
      exact hhalts (.of_reaches
        (reaches_exponential hrules hmode hbase hshape hexponent hnumber))
  | buildProduct hcoefficient hroots hdistinct hextras =>
      exact hhalts (halts_buildProduct hmode hcoefficient hroots hdistinct hextras)
  | collapse hnode => exact ⟨0, by simp [run]⟩

/-- On canonical arguments in exact mode, every call has a depth of nested calls that it
takes.  A call passes one level less on to the calls that it makes, so it decreases. -/
theorem exists_measure {mode : Mode} (hmode : mode.numeric = false) :
    ∃ measure : Call → Nat, ∀ call, call.IsCanonical → ∃ outcome,
      outcome ≠ .error .exhausted ∧
        ∀ depth, call.run mode depth =
          if measure call ≤ depth then outcome else .error .exhausted := by
  have hleast (call : Call) : ∃ least, call.IsCanonical → ∃ outcome,
      outcome ≠ .error .exhausted ∧
        ∀ depth, call.run mode depth = if least ≤ depth then outcome else .error .exhausted := by
    by_cases h : call.IsCanonical
    · obtain ⟨least, houtcome⟩ :=
        exists_least (call.run_extends mode) (exists_run_ne_exhausted hmode h)
      exact ⟨least, fun _ => houtcome⟩
    · exact ⟨0, fun hcanonical => absurd hcanonical h⟩
  exact Classical.skolem.mp hleast

/-- The product of a variable with itself is its square, from some depth on. -/
theorem exists_measure_square :
    Mode.exact.numeric = false ∧ ∃ measure : Call → Nat,
      (combineFactors (.named "x") (.named "x")).IsCanonical ∧
        ∀ depth, (combineFactors (.named "x") (.named "x")).run .exact depth =
          if measure (combineFactors (.named "x") (.named "x")) ≤ depth
            then .ok (.symbol 1 "x" 2) else .error .exhausted := by
  obtain ⟨measure, hmeasure⟩ := exists_measure (show Mode.exact.numeric = false from rfl)
  have hx : Canonical .free (.named "x") := .symbol one_ne_zero one_ne_zero trivial
  have hcanonical : (combineFactors (.named "x") (.named "x")).IsCanonical :=
    .combineFactors hx hx
  obtain ⟨outcome, hne, hrun⟩ := hmeasure _ hcanonical
  have hsquare : (combineFactors (.named "x") (.named "x")).run .exact 9 =
      .ok (.symbol 1 "x" 2) := by cbv
  have houtcome : outcome = .ok (.symbol 1 "x" 2) := by
    have h := hrun 9
    rw [hsquare] at h
    split_ifs at h
    exact h.symm
  exact ⟨rfl, measure, hcanonical, houtcome ▸ hrun⟩

end Call

end ExactAlgebra
