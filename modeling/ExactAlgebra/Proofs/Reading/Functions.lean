import ExactAlgebra.Proofs.Canonical.Signature
import ExactAlgebra.Proofs.Function.ExactCall
import ExactAlgebra.Proofs.Reading.Readable

/-!
# Built-in functions on readable expressions

The exact results of the built-in functions are readable.  Whether there is one depends on
the identity of the arguments alone.
-/

namespace ExactAlgebra

open ExactAlgebra.Expr Reduce

/-! ## What an identity tells -/

namespace Expr

variable {a b : Expr}

/-- Expressions without other expressions in them. -/
def isLeaf : Expr → Bool
  | number _ | radical .. | symbol .. => true
  | _ => false

theorem isLeaf_eq_of_content (h : a.content = b.content) : a.isLeaf = b.isLeaf := by
  have hgroup := group_eq_of_content h
  cases a <;> cases b <;> simp_all [group, isLeaf]

theorem eq_of_isLeaf (hleaf : a.isLeaf = true) (h : a.signature = b.signature) : a = b := by
  have hgroup := group_eq_of_content (content_eq_of_signature h)
  cases a <;> simp only [isLeaf, Bool.false_eq_true] at hleaf <;> cases b <;>
    simp_all [group, signature, coeff, content, Key.tuple]

/-- An observation that tells only leaves apart depends on the identity alone. -/
theorem observe_eq {A : Type} {f : Expr → A} {default : A}
    (hf : ∀ node, node.isLeaf = false → f node = default) (h : a.signature = b.signature) :
    f a = f b := by
  cases hleaf : a.isLeaf with
  | true => rw [eq_of_isLeaf hleaf h]
  | false =>
      rw [hf a hleaf, hf b]
      rw [← isLeaf_eq_of_content (content_eq_of_signature h), hleaf]

theorem constant?_eq (h : a.signature = b.signature) : a.constant? = b.constant? :=
  observe_eq (fun node hnode => by cases node <;> first | rfl | cases hnode) h

theorem isZero_eq (h : a.signature = b.signature) : a.isZero = b.isZero :=
  observe_eq (fun node hnode => by cases node <;> first | rfl | cases hnode) h

theorem isOne_eq (h : a.signature = b.signature) : a.isOne = b.isOne :=
  observe_eq (fun node hnode => by cases node <;> first | rfl | cases hnode) h

theorem isNamed_eq (name : String) (h : a.signature = b.signature) :
    a.isNamed name = b.isNamed name :=
  observe_eq (fun node hnode => by cases node <;> first | rfl | cases hnode) h

theorem argsSignatures_eq (args : List Expr) : argsSignatures args = args.map signature := by
  induction args with
  | nil => rfl
  | cons arg rest ih =>
      rw [argsSignatures, ih]
      rfl

/-- Lists of the same identities, argument by argument. -/
theorem map_signature_eq_iff {args args' : List Expr} :
    args.map signature = args'.map signature ↔
      List.Forall₂ (fun arg arg' => arg.signature = arg'.signature) args args' := by
  rw [← List.forall₂_eq_eq_eq, List.forall₂_map_left_iff, List.forall₂_map_right_iff]

theorem equals_eq_of_signature (h : a.signature = b.signature) {a' b' : Expr}
    (h' : a'.signature = b'.signature) : a.equals a' = b.equals b' := by
  rw [equals, equals, h, h']

end Expr

namespace Rule

variable {a b x x' : Expr}

theorem integer?_eq (h : a.signature = b.signature) : integer? a = integer? b := by
  rw [integer?, integer?, constant?_eq h]

theorem piInteger?_eq (h : a.signature = b.signature) : piInteger? a = piInteger? b := by
  have hmultiple : piMultiple? a = piMultiple? b :=
    observe_eq (fun node hnode => by cases node <;> first | rfl | cases hnode) h
  rw [piInteger?, piInteger?, hmultiple]

theorem naturalLog_exponential (coeff : Rat) (base exponent : Expr) :
    naturalLog (.exponential coeff base exponent) =
      if base.isNamed "e" && coeff == 1 then some exponent else none := rfl

/-- A natural logarithm is exact or not by the identity of its argument. -/
theorem naturalLog_isNone (h : a.signature = b.signature) :
    (naturalLog a).isNone = (naturalLog b).isNone := by
  cases hleaf : a.isLeaf with
  | true => rw [eq_of_isLeaf hleaf h]
  | false =>
      have hgroup := group_eq_of_content (content_eq_of_signature h)
      cases a <;> simp only [isLeaf, reduceCtorEq] at hleaf <;> cases b <;>
        simp only [group, reduceCtorEq] at hgroup
      case exponential coeff base exponent coeff' base' exponent' =>
        have hcoeff : coeff = coeff' := coeff_eq_of_signature h
        have hcontent := content_eq_of_signature h
        simp only [content, Key.tuple, Key.cons.injEq, Key.rational.injEq] at hcontent
        have hbase : base.signature = base'.signature := by
          rw [signature, signature, hcontent.2.1.1, hcontent.2.1.2]
        rw [naturalLog_exponential, naturalLog_exponential, isNamed_eq "e" hbase, hcoeff]
        split_ifs <;> rfl
      all_goals rfl

/-! ## Rules that respect identities -/

/-- An outcome that has a constant as its result, if it has one. -/
def IsConstant (outcome : Except Fault (Option Expr)) : Prop :=
  ∀ result, outcome = .ok (some result) → ∃ value, result = .number value

/-- The exact results of a rule are readable, and arguments of one identity have an exact
result or have none. -/
structure Respects (rule : Rule) : Prop where
  keeps : ∀ args : List Expr, (∀ arg ∈ args, Canonical .readable arg) → ∀ result,
    rule.exact .exact args = .ok (some result) → Canonical .readable result
  stable : ∀ args args' : List Expr, args.map signature = args'.map signature →
    rule.exact .exact args = .ok none → rule.exact .exact args' = .ok none

theorem isConstant_none : IsConstant (.ok none) := fun _ h => by simp at h

theorem isConstant_constant (value : Rat) : IsConstant (constant value) := by
  rintro result ⟨⟩
  exact ⟨value, rfl⟩

theorem isConstant_error (fault : Fault) : IsConstant (.error fault) := fun _ h => by simp at h

/-- A rule on one argument. -/
theorem respects_unary {exact : Mode → Expr → Except Fault (Option Expr)}
    {approximate : Option (Float → Option Float)}
    (hkeeps : ∀ x, Canonical .readable x → ∀ result, exact .exact x = .ok (some result) →
      Canonical .readable result)
    (hstable : ∀ x x', x.signature = x'.signature → exact .exact x = .ok none →
      exact .exact x' = .ok none) : (unary exact approximate).Respects where
  keeps args hargs result hresult := by
    match args with
    | [x] => exact hkeeps x (hargs x List.mem_cons_self) result hresult
    | [] | _ :: _ :: _ => simp [unary, noResult] at hresult
  stable args args' hsame hnone := by
    match args, args', map_signature_eq_iff.mp hsame with
    | _, _, .cons hx .nil => exact hstable _ _ hx hnone
    | _, _, .nil => exact hnone
    | _, _, .cons _ (.cons _ _) => rfl

/-- A rule on one argument that gives constants and looks at the identity. -/
theorem respects_constants {exact : Mode → Expr → Except Fault (Option Expr)}
    {approximate : Option (Float → Option Float)}
    (hconstant : ∀ x, IsConstant (exact .exact x))
    (hstable : ∀ x x', x.signature = x'.signature → exact .exact x = exact .exact x') :
    (unary exact approximate).Respects :=
  respects_unary
    (fun x _ result hresult => by
      obtain ⟨value, rfl⟩ := hconstant x result hresult
      exact .number value)
    fun x x' hsame hnone => (hstable x x' hsame).symm.trans hnone

theorem respects_atPi (value : Int → Rat) (approximate : Float → Option Float) :
    (FunctionTable.atPi value approximate).Respects := by
  refine respects_constants (fun x => ?_) fun x x' hsame => ?_
  · cases piInteger? x with
    | none => exact isConstant_none
    | some k => exact isConstant_constant _
  · simp only [piInteger?_eq hsame]

theorem respects_atPoint {point : Expr → Bool} (hpoint : ∀ {a b : Expr},
      a.signature = b.signature → point a = point b)
    (value : Rat) (approximate : Float → Option Float) :
    (atPoint point value approximate).Respects := by
  refine respects_constants (fun x => ?_) fun x x' hsame => ?_
  · split_ifs
    · exact isConstant_constant _
    · exact isConstant_none
  · simp only [hpoint hsame]

theorem respects_inexact (approximate : Float → Option Float) :
    (FunctionTable.inexact approximate).Respects :=
  respects_constants (fun _ => isConstant_none) fun _ _ _ => rfl

theorem respects_onIntegers (label : String) (least : Int) (function : Int → Nat)
    (approximate : Option (Float → Option Float)) :
    (unary (fun _ => onIntegers label least function) approximate).Respects := by
  refine respects_constants (fun x => ?_) fun x x' hsame => ?_
  · unfold onIntegers
    cases integer? x with
    | none => exact isConstant_none
    | some n =>
        dsimp only
        split_ifs
        · exact isConstant_error _
        · exact isConstant_constant _
  · simp only [onIntegers, integer?_eq hsame]

/-! ## Rules with expressions as results -/

variable {args args' : List Expr}

theorem canonical_pow (ha : Canonical .readable a) (hb : Canonical .readable b) :
    Yields .readable (Arithmetic.pow .exact a b) :=
  Arithmetic.yields_pow Discipline.readable_admissible rfl (fun h => by cases h) ha hb

/-- An outcome that has a result whenever it is no fault. -/
theorem not_ok_none {outcome : Except Fault Expr} :
    (do return some (← outcome)) ≠ (.ok none : Except Fault (Option Expr)) := by
  cases outcome <;> simp [bind, Except.bind, pure, Except.pure]

theorem ok_of_some {outcome : Except Fault Expr} {result : Expr}
    (h : (do return some (← outcome)) = (.ok (some result) : Except Fault (Option Expr))) :
    outcome = .ok result := by
  cases outcome with
  | error fault => simp [bind, Except.bind] at h
  | ok node => simpa [bind, Except.bind, pure, Except.pure] using h

theorem canonical_e : Canonical .readable (.named "e") :=
  .symbol one_ne_zero one_ne_zero
    ⟨⟨'e', [], rfl, by decide, rfl⟩, by decide, fun h => absurd h (by decide)⟩

/-- A rule that takes powers has a result for every argument. -/
theorem respects_pow {exact : Mode → Expr → Except Fault (Option Expr)}
    {power : Expr → Except Fault Expr}
    (hexact : ∀ x, exact .exact x = do return some (← power x))
    (hpower : ∀ x, Canonical .readable x → Yields .readable (power x))
    (approximate : Option (Float → Option Float)) : (unary exact approximate).Respects :=
  respects_unary
    (fun x hx result hresult => hpower x hx result (ok_of_some ((hexact x).symm.trans hresult)))
    fun x _ _ hnone => absurd ((hexact x).symm.trans hnone) not_ok_none

theorem absolute_of_not_isNumber (hnumber : a.isNumber = false) :
    absolute a = if a.isExpandedSum || a.coeff == 1 then none
      else some (Reduce.scale a.coeff.abs (.apply "abs" [a.withCoeff 1])) := by
  cases a <;> first | rfl | cases hnumber

theorem isUnevaluated_abs (hnumber : a.isNumber = false) : IsUnevaluated "abs" [a.withCoeff 1] := by
  refine ⟨.exactly 1, _, rfl, rfl, ?_⟩
  have hnone : absolute (a.withCoeff 1) = none := by
    rw [absolute_of_not_isNumber (by rwa [isNumber_withCoeff]), coeff_withCoeff]
    simp
  exact congrArg Except.ok hnone

theorem rat_abs_ne_zero {value : Rat} (h : value ≠ 0) : value.abs ≠ 0 := by
  rw [Rat.abs]
  split_ifs <;> simpa using h

theorem respects_abs (approximate : Option (Float → Option Float)) :
    (unary (fun _ x => .ok (absolute x)) approximate).Respects := by
  refine respects_unary (fun x hx result hresult => ?_) fun x x' hsame hnone => ?_
  · cases hnumber : x.isNumber with
    | true =>
        obtain ⟨value, rfl⟩ : ∃ value, x = .number value := by cases x <;> simp_all [isNumber]
        obtain rfl : Expr.number value.abs = result := by simpa [absolute] using hresult
        exact .number _
    | false =>
        rw [absolute_of_not_isNumber hnumber] at hresult
        split_ifs at hresult
        · simp at hresult
        obtain rfl : Reduce.scale x.coeff.abs (.apply "abs" [x.withCoeff 1]) = result := by
          simpa using hresult
        have hcoeff : x.coeff.abs ≠ 0 := rat_abs_ne_zero (hx.coeff_ne_zero hnumber)
        refine canonical_scale Discipline.readable_admissible.constant hcoeff ?_
        exact .call one_ne_zero one_ne_zero (isUnevaluated_abs hnumber)
          (by simpa using hx.withCoeff_one)
  · have hcontent := content_eq_of_signature hsame
    cases hnumber : x.isNumber with
    | true =>
        obtain ⟨value, rfl⟩ : ∃ value, x = .number value := by cases x <;> simp_all [isNumber]
        simp [absolute] at hnone
    | false =>
        have hnumber' : x'.isNumber = false := by rwa [← isNumber_eq_of_content hcontent]
        rw [absolute_of_not_isNumber hnumber] at hnone
        rw [absolute_of_not_isNumber hnumber', ← isExpandedSum_eq_of_content hcontent,
          ← coeff_eq_of_signature hsame]
        split_ifs at hnone ⊢ with hcondition
        · rfl
        · simp at hnone

theorem canonical_naturalLog {rules : Discipline} (ha : Canonical rules a) {result : Expr}
    (h : naturalLog a = some result) : Canonical rules result := by
  unfold naturalLog at h
  split_ifs at h with hnamed
  · obtain rfl := Option.some.inj h
    exact .number 1
  · split at h
    next coeff base exponent =>
      split_ifs at h
      obtain rfl := Option.some.inj h
      cases ha <;> assumption
    next =>
      split_ifs at h
      obtain rfl := Option.some.inj h
      exact .number _
    next => simp at h

theorem isConstant_exactLog (x base : Expr) : IsConstant (exactLog x base) := by
  intro result hresult
  unfold exactLog at hresult
  split at hresult
  next n b _ _ =>
    obtain ⟨k, -, rfl⟩ := Option.map_eq_some_iff.mp (Except.ok.inj hresult)
    exact ⟨k, rfl⟩
  next => simp [noResult] at hresult

theorem canonical_of_isConstant {outcome : Except Fault (Option Expr)} (h : IsConstant outcome)
    {result : Expr} (hresult : outcome = .ok (some result)) : Canonical .readable result := by
  obtain ⟨value, rfl⟩ := h result hresult
  exact .number value

theorem isConstant_logarithm (x base : Expr) : IsConstant (logarithm x (some base)) := by
  unfold logarithm
  dsimp only
  split_ifs
  · exact isConstant_error _
  · exact isConstant_constant _
  · exact isConstant_error _
  · exact isConstant_constant _
  · exact isConstant_exactLog x base

theorem exactLog_eq (hx : a.signature = b.signature) (hbase : x.signature = x'.signature) :
    exactLog a x = exactLog b x' := by
  rw [exactLog, exactLog, constant?_eq hx, constant?_eq hbase]

theorem logarithm_eq (hx : a.signature = b.signature) (hbase : x.signature = x'.signature) :
    logarithm a (some x) = logarithm b (some x') := by
  simp only [logarithm, isZero_eq hx, isOne_eq hx, isOne_eq hbase, isZero_eq hbase,
    coeff_eq_of_signature hbase, equals_eq_of_signature hx hbase, exactLog_eq hx hbase]

theorem respects_log (approximate : Option (List Float → Option Float)) :
    Respects ⟨fun _ args => match args with
      | [x] => logarithm x none
      | [x, base] => logarithm x (some base)
      | _ => noResult, approximate⟩ where
  keeps args hargs result hresult := by
    rcases args with _ | ⟨x, _ | ⟨base, _ | ⟨extra, rest⟩⟩⟩
    · simp [noResult] at hresult
    · have hlog : logarithm x none = .ok (some result) := hresult
      unfold logarithm at hlog
      split_ifs at hlog
      · exact canonical_of_isConstant (isConstant_constant 0) hlog
      · exact canonical_naturalLog (hargs x List.mem_cons_self) (Except.ok.inj hlog)
    · exact canonical_of_isConstant (isConstant_logarithm x base) hresult
    · simp [noResult] at hresult
  stable args args' hsame hnone := by
    rcases map_signature_eq_iff.mp hsame with _ | ⟨hx, _ | ⟨hbase, _ | _⟩⟩
    · exact hnone
    · rename_i x x'
      have hlog : logarithm x none = .ok none := hnone
      change logarithm x' none = .ok none
      unfold logarithm at hlog ⊢
      rw [isZero_eq hx, isOne_eq hx] at hlog
      split_ifs at hlog ⊢
      · exact hlog
      · have hisNone := naturalLog_isNone hx
        rw [Except.ok.inj hlog] at hisNone
        rw [Option.isNone_iff_eq_none.mp hisNone.symm]
    · exact (logarithm_eq hx hbase).symm.trans hnone
    · rfl

theorem isConstant_commonLogarithm (x : Expr) : IsConstant (commonLogarithm x) := by
  unfold commonLogarithm
  split_ifs
  · exact isConstant_error _
  · exact isConstant_constant _
  · exact isConstant_exactLog x _

theorem respects_log10 (approximate : Option (Float → Option Float)) :
    (unary (fun _ x => commonLogarithm x) approximate).Respects :=
  respects_constants isConstant_commonLogarithm fun x x' hsame => by
    simp only [commonLogarithm, isZero_eq hsame, isOne_eq hsame, exactLog_eq hsame rfl]

theorem isConstant_rounded (x : Expr) (digits : Option Expr) :
    IsConstant (rounded x digits) := by
  unfold rounded
  split
  · exact isConstant_none
  · split
    · exact isConstant_constant _
    · split
      · exact isConstant_constant _
      · exact isConstant_error _
      · exact isConstant_none

theorem isConstant_remainder (x y : Expr) : IsConstant (remainder x y) := by
  unfold remainder
  split
  next m n _ _ =>
    intro result hresult
    cases hmodulo : Strict.modulo m n with
    | error fault => simp [hmodulo, bind, Except.bind] at hresult
    | ok value =>
        refine ⟨value, ?_⟩
        simpa [hmodulo, bind, Except.bind, pure, Except.pure] using hresult.symm
  next =>
    split_ifs
    · exact isConstant_error _
    · exact isConstant_none

theorem isConstant_extreme (before : Rat → Rat → Bool) (args : List Expr) :
    IsConstant (.ok (extreme before args)) := by
  intro result hresult
  unfold extreme at hresult
  split at hresult
  · exact ⟨_, (Option.some.inj (Except.ok.inj hresult)).symm⟩
  · simp at hresult

/-- A rule that gives constants and looks at identities. -/
theorem respects_of_isConstant {rule : Rule}
    (hconstant : ∀ args, IsConstant (rule.exact .exact args))
    (hstable : ∀ args args' : List Expr, args.map signature = args'.map signature →
      rule.exact .exact args = rule.exact .exact args') : rule.Respects where
  keeps args _ _ hresult := canonical_of_isConstant (hconstant args) hresult
  stable args args' hsame hnone := (hstable args args' hsame).symm.trans hnone

theorem respects_floor {f : Rat → Rat} :
    (exactly fun _ x => .ok (x.constant?.map fun value => .number (f value))).Respects := by
  refine respects_constants (fun x => ?_) fun x x' hsame => by rw [constant?_eq hsame]
  intro result hresult
  obtain ⟨value, -, rfl⟩ := Option.map_eq_some_iff.mp (Except.ok.inj hresult)
  exact ⟨_, rfl⟩

theorem respects_round : Respects ⟨fun _ args => match args with
    | [x] => rounded x none
    | [x, digits] => rounded x (some digits)
    | _ => noResult, none⟩ := by
  refine respects_of_isConstant (fun args => ?_) fun args args' hsame => ?_
  · match args with
    | [x] => exact isConstant_rounded x none
    | [x, digits] => exact isConstant_rounded x (some digits)
    | [] | _ :: _ :: _ :: _ => exact isConstant_none
  · match args, args', map_signature_eq_iff.mp hsame with
    | _, _, .cons hx .nil => simp only [rounded, constant?_eq hx]
    | _, _, .cons hx (.cons hdigits .nil) =>
        simp only [rounded, constant?_eq hx, integer?_eq hdigits, constant?_eq hdigits]
    | _, _, .nil | _, _, .cons _ (.cons _ (.cons _ _)) => rfl

theorem constants?_eq (h : args.map signature = args'.map signature) :
    constants? args = constants? args' := by
  rw [map_signature_eq_iff] at h
  induction h with
  | nil => rfl
  | cons hx _ ih =>
      rw [constants?, constants?] at ih
      rw [constants?, constants?, List.mapM_cons, List.mapM_cons, constant?_eq hx, ih]

theorem respects_extreme (before : Rat → Rat → Bool) :
    Respects ⟨fun _ args => .ok (extreme before args), none⟩ := by
  refine respects_of_isConstant (isConstant_extreme before) fun args args' hsame => ?_
  simp only [extreme, constants?_eq hsame]

theorem respects_mod : Respects ⟨fun _ args => match args with
    | [a, b] => remainder a b
    | _ => noResult, none⟩ := by
  refine respects_of_isConstant (fun args => ?_) fun args args' hsame => ?_
  · match args with
    | [a, b] => exact isConstant_remainder a b
    | [] | [_] | _ :: _ :: _ :: _ => exact isConstant_none
  · match args, args', map_signature_eq_iff.mp hsame with
    | _, _, .cons ha (.cons hb .nil) =>
        simp only [remainder, constant?_eq ha, constant?_eq hb, isZero_eq hb]
    | _, _, .nil | _, _, .cons _ .nil | _, _, .cons _ (.cons _ (.cons _ _)) => rfl

theorem respects_binaryPow : Respects ⟨fun mode args => match args with
    | [a, b] => do return some (← Arithmetic.pow mode a b)
    | _ => noResult, none⟩ where
  keeps args hargs result hresult := by
    match args with
    | [a, b] =>
        obtain ⟨ha, hb⟩ : Canonical .readable a ∧ Canonical .readable b := by
          simpa using hargs
        exact canonical_pow ha hb result (ok_of_some hresult)
    | [] | [_] | _ :: _ :: _ :: _ => simp [noResult] at hresult
  stable args args' hsame hnone := by
    match args, args', map_signature_eq_iff.mp hsame with
    | _, _, .cons _ (.cons _ .nil) => exact absurd hnone not_ok_none
    | _, _, .nil | _, _, .cons _ .nil | _, _, .cons _ (.cons _ (.cons _ _)) => rfl

/-- The rules of the built-in functions respect identities. -/
theorem respects_standard {entry : String × FunctionEntry}
    (h : entry ∈ FunctionTable.standard.entries) :
    ∃ rule, entry.2.definition = .builtIn rule ∧ rule.Respects := by
  have hroot : ∀ degree, (FunctionTable.rootRule degree).Respects := fun degree =>
    respects_pow (fun _ => rfl) (fun x hx => canonical_pow hx (.number _)) none
  have helementary : ∀ entry ∈ FunctionTable.elementary,
      ∃ rule, entry.2.definition = .builtIn rule ∧ rule.Respects := by
    simp only [FunctionTable.elementary, List.forall_mem_cons, List.not_mem_nil, false_imp_iff,
      implies_true, and_true]
    exact ⟨⟨_, rfl, hroot 2⟩, ⟨_, rfl, hroot 3⟩, ⟨_, rfl, respects_abs _⟩,
      ⟨_, rfl, respects_pow (fun _ => rfl) (fun x hx => canonical_pow canonical_e hx) _⟩,
      ⟨_, rfl, respects_log _⟩, ⟨_, rfl, respects_log10 _⟩,
      ⟨_, rfl, respects_atPi _ _⟩, ⟨_, rfl, respects_atPi _ _⟩, ⟨_, rfl, respects_atPi _ _⟩,
      ⟨_, rfl, respects_atPoint isZero_eq _ _⟩, ⟨_, rfl, respects_atPoint isZero_eq _ _⟩,
      ⟨_, rfl, respects_inexact _⟩, ⟨_, rfl, respects_inexact _⟩,
      ⟨_, rfl, respects_atPoint isZero_eq _ _⟩, ⟨_, rfl, respects_atPoint isZero_eq _ _⟩,
      ⟨_, rfl, respects_atPoint isZero_eq _ _⟩, ⟨_, rfl, respects_atPoint isZero_eq _ _⟩,
      ⟨_, rfl, respects_atPoint isZero_eq _ _⟩, ⟨_, rfl, respects_atPoint isZero_eq _ _⟩,
      ⟨_, rfl, respects_atPoint isOne_eq _ _⟩, ⟨_, rfl, respects_atPoint isOne_eq _ _⟩⟩
  have hspecial : ∀ entry ∈ FunctionTable.special,
      ∃ rule, entry.2.definition = .builtIn rule ∧ rule.Respects := by
    simp only [FunctionTable.special, List.forall_mem_cons, List.not_mem_nil, false_imp_iff,
      implies_true, and_true]
    exact ⟨⟨_, rfl, respects_atPoint isZero_eq _ _⟩, ⟨_, rfl, respects_onIntegers _ _ _ _⟩,
      ⟨_, rfl, respects_onIntegers _ _ _ _⟩, ⟨_, rfl, respects_onIntegers _ _ _ _⟩,
      ⟨_, rfl, respects_onIntegers _ _ _ _⟩⟩
  have hexactOnly : ∀ entry ∈ FunctionTable.exactOnly,
      ∃ rule, entry.2.definition = .builtIn rule ∧ rule.Respects := by
    simp only [FunctionTable.exactOnly, List.forall_mem_cons, List.not_mem_nil, false_imp_iff,
      implies_true, and_true]
    exact ⟨⟨_, rfl, respects_floor⟩, ⟨_, rfl, respects_floor⟩, ⟨_, rfl, respects_round⟩,
      ⟨_, rfl, respects_extreme _⟩, ⟨_, rfl, respects_extreme _⟩, ⟨_, rfl, respects_mod⟩,
      ⟨_, rfl, respects_binaryPow⟩⟩
  simp only [FunctionTable.standard, List.mem_append] at h
  rcases h with (h | h) | h
  · exact helementary entry h
  · exact hspecial entry h
  · exact hexactOnly entry h

end Rule

/-! ## Calls -/

open Rule

variable {name : String} {args args' : List Expr} {read : Reader}

theorem exists_rule {entry : FunctionEntry} (h : FunctionTable.standard.get? name = some entry) :
    ∃ rule, entry.definition = .builtIn rule ∧ rule.Respects := by
  obtain ⟨found, hfound, rfl⟩ := Option.map_eq_some_iff.mp h
  exact respects_standard (List.mem_of_find?_eq_some hfound)

/-- The names of the built-in functions are names of the notation. -/
theorem isName_of_contains (h : FunctionTable.standard.contains name = true) :
    Phrase.IsName Token.standardAlphabet name := by
  have hall : ∀ known ∈ FunctionTable.standard.names,
      Phrase.IsName Token.standardAlphabet known := by
    decide +kernel
  obtain ⟨entry, hentry, hname⟩ := List.any_eq_true.mp h
  obtain rfl : entry.1 = name := by simpa using hname
  exact hall _ (List.mem_map_of_mem hentry)

/-- An unevaluated call has a known function and arguments that it accepts. -/
theorem IsUnevaluated.accepted (h : IsUnevaluated name args) :
    FunctionTable.standard.contains name = true ∧
      FunctionTable.standard.accepts name args.length = true ∧ args ≠ [] := by
  obtain ⟨arity, rule, hentry, haccepts, -⟩ := h
  obtain ⟨found, hfound, heq⟩ := Option.map_eq_some_iff.mp hentry
  have hmem := List.mem_of_find?_eq_some hfound
  have hname : (found.1 == name) = true := by simpa using List.find?_some hfound
  refine ⟨List.any_eq_true.mpr ⟨found, hmem, hname⟩, ?_, ?_⟩
  · simp only [FunctionTable.accepts, hentry, haccepts]
  · rintro rfl
    have hleast : ∀ count ∈ FunctionTable.standard.entries.map fun entry => entry.2.arity.least,
        1 ≤ count := by
      decide +kernel
    have hone : 1 ≤ arity.least := by simpa [heq] using hleast _ (List.mem_map_of_mem hmem)
    simp only [Arity.accepts, List.length_nil, Nat.le_zero, Bool.and_eq_true,
      decide_eq_true_eq] at haccepts
    exact absurd haccepts.1 (by omega)

theorem evaluateCall_builtIn (rule : Rule) : Environment.standard.evaluateCall read name
    (.builtIn rule) args = rule.exact .exact args >>= fun outcome =>
      .ok (outcome.getD (.apply name args)) :=
  Environment.evaluateCall_exact rfl read name rule args

/-- A call of a built-in function is readable. -/
theorem yields_callWith (hargs : ∀ arg ∈ args, Canonical .readable arg) :
    Yields .readable (Environment.standard.callWith read name args) := by
  unfold Environment.callWith
  split
  · exact .error _
  next entry hentry =>
    split_ifs with haccepts
    · refine Arithmetic.yields_guarded ?_ fun h => by cases h
      obtain ⟨rule, hdefinition, hrespects⟩ := exists_rule hentry
      rw [hdefinition, evaluateCall_builtIn]
      refine .bind fun outcome houtcome => .ok ?_
      cases outcome with
      | some result => exact hrespects.keeps args hargs result houtcome
      | none =>
          refine .call one_ne_zero one_ne_zero ⟨entry.arity, rule, ?_, haccepts, houtcome⟩ hargs
          rw [← hdefinition]
          exact hentry
    · exact .error _

/-- A call that has no exact result has none for arguments of the same identities. -/
theorem callWith_of_isUnevaluated (h : IsUnevaluated name args)
    (hsame : args.map signature = args'.map signature) :
    Environment.standard.callWith read name args' = .ok (.apply name args') := by
  obtain ⟨arity, rule, hentry, haccepts, hnone⟩ := h
  have hlength : args.length = args'.length := by simpa using congrArg List.length hsame
  obtain ⟨rule', hdefinition, hrespects⟩ := exists_rule hentry
  obtain rfl : rule = rule' := Definition.builtIn.inj hdefinition
  have hentry' : Environment.standard.functions.get? name = some ⟨arity, .builtIn rule⟩ := hentry
  rw [hlength] at haccepts
  simp only [Environment.callWith, hentry', haccepts, if_true, evaluateCall_builtIn,
    hrespects.stable args args' hsame hnone]
  rfl

end ExactAlgebra
