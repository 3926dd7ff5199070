import ExactAlgebra.Proofs.Depth.Operations
import ExactAlgebra.Proofs.Reading.Derivation
import ExactAlgebra.Proofs.Reading.Replay

/-!
# Texts under error suppression

In exact mode with suppressed errors, the operations of the standard notation and the built-in
functions have canonical results on canonical operands: whatever faults they have are domain
faults, and the calls that stand in for them are canonical.  So a text can only fail to be an
expression, however its operations and calls are nested.
-/

namespace ExactAlgebra

open ExactAlgebra.Expr Reduce

variable {mode : Mode} {a b : Expr}

/-! ## Operations -/

namespace Arithmetic

theorem exists_pow_suppressed (hmode : mode.numeric = false)
    (hsuppress : mode.suppressErrors = true) (ha : Canonical .free a) (hb : Canonical .free b) :
    ∃ node, pow mode a b = .ok node ∧ Canonical .free node := by
  by_cases h : IsUndefined a b
  · obtain ⟨p, rfl, rfl, hp⟩ := h
    have hdomain : (zeroFault p).isDomain = true := by
      refine isDomain_of_kind ?_
      rw [zeroFault_kind]
      split_ifs <;> simp
    exact ⟨_, by rw [pow_zero hp, guarded_of_isDomain hsuppress hdomain],
      canonical_unevaluatedPower ha hb trivial⟩
  · exact exists_pow (Discipline.free_admissible mode) hmode ha hb h

theorem exists_divide_suppressed (hmode : mode.numeric = false)
    (hsuppress : mode.suppressErrors = true) (ha : Canonical .free a) (hb : Canonical .free b) :
    ∃ node, divide mode a b = .ok node ∧ Canonical .free node := by
  have hrules := Discipline.free_admissible mode
  by_cases h : b = .number 0
  · subst h
    obtain ⟨fault, hquotient, hkind⟩ := quotient_zero mode a
    rw [divide, hquotient, guarded_of_isDomain hsuppress (isDomain_of_kind (.inr hkind))]
    exact exists_multiply hrules hmode ha (canonical_unevaluatedPower hb (.number _) trivial)
  · obtain ⟨node, hquotient, hnode⟩ := exists_quotient hrules hmode ha hb h
    exact ⟨node, by rw [divide, hquotient, guarded_ok], hnode⟩

end Arithmetic

/-! ## Rules -/

namespace Rule

/-- An outcome with a canonical result, if there is one, or with a fault that can be
suppressed. -/
structure Suppressible (outcome : Except Fault (Option Expr)) : Prop where
  keeps : ∀ result, outcome = .ok (some result) → Canonical .free result
  faults : ∀ fault, outcome = .error fault → fault.isDomain = true

theorem suppressible_none : Suppressible (.ok none) := ⟨nofun, nofun⟩

theorem suppressible_some (h : Canonical .free a) : Suppressible (.ok (some a)) where
  keeps := by
    rintro result ⟨⟩
    exact h
  faults := nofun

theorem suppressible_option {result : Option Expr} (h : ∀ node ∈ result, Canonical .free node) :
    Suppressible (.ok result) where
  keeps node hnode := h node (Except.ok.inj hnode)
  faults := nofun

theorem suppressible_constant (value : Rat) : Suppressible (constant value) :=
  suppressible_some (.number value)

theorem suppressible_error {fault : Fault} (h : fault.isDomain = true) :
    Suppressible (.error fault) where
  keeps := nofun
  faults := by
    rintro fault' ⟨⟩
    exact h

/-- A rule that takes powers. -/
theorem suppressible_pow (hmode : mode.numeric = false) (hsuppress : mode.suppressErrors = true)
    (ha : Canonical .free a) (hb : Canonical .free b) :
    Suppressible (do return some (← Arithmetic.pow mode a b)) := by
  obtain ⟨node, hpow, hnode⟩ := Arithmetic.exists_pow_suppressed hmode hsuppress ha hb
  rw [hpow]
  exact suppressible_some hnode

theorem suppressible_absolute (ha : Canonical .free a) : Suppressible (.ok (absolute a)) := by
  cases hnumber : a.isNumber with
  | true =>
      obtain ⟨value, rfl⟩ := exists_eq_number hnumber
      exact suppressible_some (.number value.abs)
  | false =>
      rw [absolute_of_not_isNumber hnumber]
      split_ifs
      · exact suppressible_none
      · refine suppressible_some (canonical_scale (Discipline.free_admissible .exact).constant
          (rat_abs_ne_zero (ha.coeff_ne_zero hnumber)) ?_)
        exact .call one_ne_zero one_ne_zero trivial (by simpa using ha.withCoeff_one)

theorem suppressible_exactLog (x base : Expr) : Suppressible (exactLog x base) := by
  unfold exactLog
  split
  · refine suppressible_option fun node hnode => ?_
    obtain ⟨k, -, rfl⟩ := Option.map_eq_some_iff.mp hnode
    exact .number k
  · exact suppressible_none

theorem suppressible_logarithm (ha : Canonical .free a) (base : Option Expr) :
    Suppressible (logarithm a base) := by
  unfold logarithm
  split_ifs
  · exact suppressible_error rfl
  · exact suppressible_constant 0
  · cases base with
    | none => exact suppressible_option fun node hnode => canonical_naturalLog ha hnode
    | some base =>
        dsimp only
        split_ifs
        · exact suppressible_error rfl
        · exact suppressible_constant 1
        · exact suppressible_exactLog a base

theorem suppressible_commonLogarithm (x : Expr) : Suppressible (commonLogarithm x) := by
  unfold commonLogarithm
  split_ifs
  · exact suppressible_error rfl
  · exact suppressible_constant 0
  · exact suppressible_exactLog x _

theorem suppressible_onIntegers (label : String) (least : Int) (function : Int → Nat) (x : Expr) :
    Suppressible (onIntegers label least function x) := by
  unfold onIntegers
  split
  · exact suppressible_none
  · split_ifs
    · exact suppressible_error rfl
    · exact suppressible_constant _

theorem suppressible_rounded (x : Expr) (digits : Option Expr) :
    Suppressible (rounded x digits) := by
  unfold rounded
  split
  · exact suppressible_none
  · split
    · exact suppressible_constant _
    · split
      · exact suppressible_constant _
      · exact suppressible_error rfl
      · exact suppressible_none

theorem suppressible_extreme (before : Rat → Rat → Bool) (args : List Expr) :
    Suppressible (.ok (extreme before args)) := by
  unfold extreme
  split
  · exact suppressible_some (.number _)
  · exact suppressible_none

theorem suppressible_remainder (x y : Expr) : Suppressible (remainder x y) := by
  unfold remainder
  split
  next m n _ _ =>
    unfold Strict.modulo
    split_ifs
    · exact suppressible_error rfl
    · exact suppressible_some (.number _)
  next =>
    split_ifs
    · exact suppressible_error rfl
    · exact suppressible_none

/-- The faults of a rule can be suppressed, and its exact results are canonical. -/
def IsSuppressible (mode : Mode) (rule : Rule) : Prop :=
  ∀ args : List Expr, (∀ arg ∈ args, Canonical .free arg) → Suppressible (rule.exact mode args)

theorem isSuppressible_unary {exact : Mode → Expr → Except Fault (Option Expr)}
    {approximate : Option (Float → Option Float)}
    (h : ∀ x, Canonical .free x → Suppressible (exact mode x)) :
    (unary exact approximate).IsSuppressible mode := by
  intro args hargs
  match args with
  | [x] => exact h x (hargs x List.mem_cons_self)
  | [] | _ :: _ :: _ => exact suppressible_none

theorem isSuppressible_atPi (value : Int → Rat) (approximate : Float → Option Float) :
    (FunctionTable.atPi value approximate).IsSuppressible mode := by
  refine isSuppressible_unary fun x _ => ?_
  split
  · exact suppressible_constant _
  · exact suppressible_none

theorem isSuppressible_atPoint (point : Expr → Bool) (value : Rat)
    (approximate : Float → Option Float) :
    (atPoint point value approximate).IsSuppressible mode := by
  refine isSuppressible_unary fun x _ => ?_
  split_ifs
  · exact suppressible_constant _
  · exact suppressible_none

theorem isSuppressible_inexact (approximate : Float → Option Float) :
    (FunctionTable.inexact approximate).IsSuppressible mode :=
  isSuppressible_unary fun _ _ => suppressible_none

theorem isSuppressible_floor {f : Rat → Rat} :
    (exactly fun _ x => .ok (x.constant?.map fun value => .number (f value))).IsSuppressible
      mode := by
  refine isSuppressible_unary fun x _ => suppressible_option fun node hnode => ?_
  obtain ⟨value, -, rfl⟩ := Option.map_eq_some_iff.mp hnode
  exact .number _

/-- The rules of the built-in functions have no faults but domain faults. -/
theorem isSuppressible_standard (hmode : mode.numeric = false)
    (hsuppress : mode.suppressErrors = true) {entry : String × FunctionEntry}
    (h : entry ∈ FunctionTable.standard.entries) :
    ∃ rule, entry.2.definition = .builtIn rule ∧ rule.IsSuppressible mode := by
  have he : Canonical .free (.named "e") := .symbol one_ne_zero one_ne_zero trivial
  have hroot : ∀ degree, (FunctionTable.rootRule degree).IsSuppressible mode := fun degree =>
    isSuppressible_unary fun x hx => suppressible_pow hmode hsuppress hx (.number _)
  have helementary : ∀ entry ∈ FunctionTable.elementary,
      ∃ rule, entry.2.definition = .builtIn rule ∧ rule.IsSuppressible mode := by
    simp only [FunctionTable.elementary, List.forall_mem_cons, List.not_mem_nil, false_imp_iff,
      implies_true, and_true]
    refine ⟨⟨_, rfl, hroot 2⟩, ⟨_, rfl, hroot 3⟩,
      ⟨_, rfl, isSuppressible_unary fun x hx => suppressible_absolute hx⟩,
      ⟨_, rfl, isSuppressible_unary fun x hx => ?_⟩, ⟨_, rfl, fun args hargs => ?_⟩,
      ⟨_, rfl, isSuppressible_unary fun x _ => suppressible_commonLogarithm x⟩,
      ⟨_, rfl, isSuppressible_atPi _ _⟩, ⟨_, rfl, isSuppressible_atPi _ _⟩,
      ⟨_, rfl, isSuppressible_atPi _ _⟩,
      ⟨_, rfl, isSuppressible_atPoint _ _ _⟩, ⟨_, rfl, isSuppressible_atPoint _ _ _⟩,
      ⟨_, rfl, isSuppressible_inexact _⟩, ⟨_, rfl, isSuppressible_inexact _⟩,
      ⟨_, rfl, isSuppressible_atPoint _ _ _⟩, ⟨_, rfl, isSuppressible_atPoint _ _ _⟩,
      ⟨_, rfl, isSuppressible_atPoint _ _ _⟩, ⟨_, rfl, isSuppressible_atPoint _ _ _⟩,
      ⟨_, rfl, isSuppressible_atPoint _ _ _⟩, ⟨_, rfl, isSuppressible_atPoint _ _ _⟩,
      ⟨_, rfl, isSuppressible_atPoint _ _ _⟩, ⟨_, rfl, isSuppressible_atPoint _ _ _⟩⟩
    · rw [hmode]
      exact suppressible_pow hmode hsuppress he hx
    · rcases args with _ | ⟨x, _ | ⟨base, _ | ⟨extra, rest⟩⟩⟩
      · exact suppressible_none
      · exact suppressible_logarithm (hargs x List.mem_cons_self) none
      · exact suppressible_logarithm (hargs x List.mem_cons_self) (some base)
      · exact suppressible_none
  have hspecial : ∀ entry ∈ FunctionTable.special,
      ∃ rule, entry.2.definition = .builtIn rule ∧ rule.IsSuppressible mode := by
    simp only [FunctionTable.special, List.forall_mem_cons, List.not_mem_nil, false_imp_iff,
      implies_true, and_true]
    exact ⟨⟨_, rfl, isSuppressible_atPoint _ _ _⟩,
      ⟨_, rfl, isSuppressible_unary fun x _ => suppressible_onIntegers _ _ _ x⟩,
      ⟨_, rfl, isSuppressible_unary fun x _ => suppressible_onIntegers _ _ _ x⟩,
      ⟨_, rfl, isSuppressible_unary fun x _ => suppressible_onIntegers _ _ _ x⟩,
      ⟨_, rfl, isSuppressible_unary fun x _ => suppressible_onIntegers _ _ _ x⟩⟩
  have hexactOnly : ∀ entry ∈ FunctionTable.exactOnly,
      ∃ rule, entry.2.definition = .builtIn rule ∧ rule.IsSuppressible mode := by
    simp only [FunctionTable.exactOnly, List.forall_mem_cons, List.not_mem_nil, false_imp_iff,
      implies_true, and_true]
    refine ⟨⟨_, rfl, isSuppressible_floor⟩, ⟨_, rfl, isSuppressible_floor⟩,
      ⟨_, rfl, fun args _ => ?_⟩, ⟨_, rfl, fun args _ => suppressible_extreme _ args⟩,
      ⟨_, rfl, fun args _ => suppressible_extreme _ args⟩, ⟨_, rfl, fun args _ => ?_⟩,
      ⟨_, rfl, fun args hargs => ?_⟩⟩
    · rcases args with _ | ⟨x, _ | ⟨digits, _ | ⟨extra, rest⟩⟩⟩
      · exact suppressible_none
      · exact suppressible_rounded x none
      · exact suppressible_rounded x (some digits)
      · exact suppressible_none
    · rcases args with _ | ⟨x, _ | ⟨y, _ | ⟨extra, rest⟩⟩⟩
      · exact suppressible_none
      · exact suppressible_none
      · exact suppressible_remainder x y
      · exact suppressible_none
    · rcases args with _ | ⟨x, _ | ⟨y, _ | ⟨extra, rest⟩⟩⟩
      · exact suppressible_none
      · exact suppressible_none
      · exact suppressible_pow hmode hsuppress (hargs x (by simp)) (hargs y (by simp))
      · exact suppressible_none
  simp only [FunctionTable.standard, List.mem_append] at h
  rcases h with (h | h) | h
  · exact helementary entry h
  · exact hspecial entry h
  · exact hexactOnly entry h

end Rule

/-! ## Evaluation -/

/-- What stands behind all evaluation in exact mode with suppressed errors, without changes to the
notation. -/
structure Environment.Suppresses (env : Environment) : Prop where
  numeric : env.mode.numeric = false
  suppress : env.mode.suppressErrors = true
  functions : env.functions = .standard
  operators : env.operators = .standard
  bindings : env.settings.bindings = []

namespace Environment

open Arithmetic Postfix SyntaxTree

variable {env : Environment} {read : Reader} {name : String} {args operands stack : List Expr}
  {operation : Operation}

theorem Suppresses.exists_callWith (h : env.Suppresses) (read : Reader)
    (haccepts : FunctionTable.standard.accepts name args.length = true)
    (hargs : ∀ arg ∈ args, Canonical .free arg) :
    ∃ node, env.callWith read name args = .ok node ∧ Canonical .free node := by
  have happly : Canonical .free (.apply name args) :=
    .call one_ne_zero one_ne_zero trivial hargs
  cases hentry : FunctionTable.standard.get? name with
  | none => simp [FunctionTable.accepts, hentry] at haccepts
  | some entry =>
      obtain ⟨found, hfound, rfl⟩ := Option.map_eq_some_iff.mp hentry
      obtain ⟨rule, hdefinition, hrule⟩ := Rule.isSuppressible_standard h.numeric h.suppress
        (List.mem_of_find?_eq_some hfound)
      have hcount : found.2.arity.accepts args.length = true := by
        simpa [FunctionTable.accepts, hentry] using haccepts
      have hcall : env.callWith read name args =
          guarded env.mode (env.evaluateCall read name found.2.definition args)
            (.ok (.apply name args)) := by
        simp only [callWith, h.functions, hentry, hcount, if_true]
      obtain ⟨hkeeps, hfaults⟩ := hrule args hargs
      rw [hcall, hdefinition]
      simp only [evaluateCall]
      cases hexact : rule.exact env.mode args with
      | error fault =>
          exact ⟨_, guarded_of_isDomain h.suppress (hfaults fault hexact) _, happly⟩
      | ok outcome =>
          cases outcome with
          | some result => exact ⟨result, rfl, hkeeps result hexact⟩
          | none =>
              refine ⟨.apply name args, ?_, happly⟩
              simp only [bind, Except.bind, h.numeric, Bool.false_eq_true, if_false]
              split <;> rfl

/-- An operation on its number of operands. -/
theorem Suppresses.exists_operateWith (h : env.Suppresses) (read : Reader)
    (hcount : operands.length = operation.operands.length)
    (hoperands : ∀ operand ∈ operands, Canonical .free operand) :
    ∃ node, env.operateWith read operation operands = .ok node ∧ Canonical .free node := by
  have hrules := Discipline.free_admissible env.mode
  have hbinary (hcount : operands.length = 2) :
      ∃ a b, operands = [a, b] ∧ Canonical .free a ∧ Canonical .free b := by
    obtain ⟨a, b, rfl⟩ := List.length_eq_two.mp hcount
    exact ⟨a, b, rfl, by simpa using hoperands⟩
  have hunary (hcount : operands.length = 1) : ∃ a, operands = [a] ∧ Canonical .free a := by
    obtain ⟨a, rfl⟩ := List.length_eq_one_iff.mp hcount
    exact ⟨a, rfl, by simpa using hoperands⟩
  cases operation with
  | add =>
      obtain ⟨a, b, rfl, ha, hb⟩ := hbinary hcount
      obtain ⟨total, hadd, htotal, -⟩ := totals_add hrules ha hb
      exact ⟨total, hadd, htotal⟩
  | subtract =>
      obtain ⟨a, b, rfl, ha, hb⟩ := hbinary hcount
      obtain ⟨total, hsubtract, htotal, -⟩ := totals_subtract hrules ha hb
      exact ⟨total, hsubtract, htotal⟩
  | multiply =>
      obtain ⟨a, b, rfl, ha, hb⟩ := hbinary hcount
      exact exists_multiply hrules h.numeric ha hb
  | divide =>
      obtain ⟨a, b, rfl, ha, hb⟩ := hbinary hcount
      exact exists_divide_suppressed h.numeric h.suppress ha hb
  | pow =>
      obtain ⟨a, b, rfl, ha, hb⟩ := hbinary hcount
      exact exists_pow_suppressed h.numeric h.suppress ha hb
  | negate =>
      obtain ⟨a, rfl, ha⟩ := hunary hcount
      exact ⟨negate a, rfl, canonical_negate hrules ha⟩
  | invert =>
      obtain ⟨a, rfl, ha⟩ := hunary hcount
      exact exists_pow_suppressed h.numeric h.suppress ha (.number (-1))
  | identity =>
      obtain ⟨a, rfl, ha⟩ := hunary hcount
      exact ⟨a, rfl, ha⟩
  | factorial =>
      obtain ⟨a, rfl, -⟩ := hunary hcount
      have haccepts : FunctionTable.standard.accepts "factorial" 1 = true := by decide
      exact h.exists_callWith read haccepts hoperands
  | doubleFactorial =>
      obtain ⟨a, rfl, -⟩ := hunary hcount
      have haccepts : FunctionTable.standard.accepts "dfactorial" 1 = true := by decide
      exact h.exists_callWith read haccepts hoperands
  | percent =>
      obtain ⟨a, rfl, ha⟩ := hunary hcount
      exact exists_multiply hrules h.numeric ha (.number (1 / 100))

/-- Items whose evaluation cannot fail. -/
inductive Applicable : PostfixItem Expr → Prop
  | operand {value : Expr} (h : Canonical .free value) : Applicable (.operand value)
  | operator {operator : Operator} (h : operator ∈ OperatorTable.standard.operators) :
      Applicable (.operator operator)
  | call {name : String} {count : Nat} (h : FunctionTable.standard.accepts name count = true) :
      Applicable (.call name count)

theorem arity_eq {operator : Operator} (h : operator ∈ OperatorTable.standard.operators) :
    operator.arity = operator.operation.operands.length := by
  have hall : ∀ operator ∈ OperatorTable.standard.operators,
      operator.arity = operator.operation.operands.length := by decide
  exact hall operator h

/-- Each item leaves canonical operands on the stack. -/
theorem Suppresses.exists_evaluateItems (h : env.Suppresses) (read : Reader)
    {items : List (PostfixItem Expr)} (hitems : ∀ item ∈ items, Applicable item)
    (hstack : ∀ operand ∈ stack, Canonical .free operand)
    (hdepth : depthAfter stack.length items = some 1) :
    ∃ node, env.evaluateItems read stack items = .ok node ∧ Canonical .free node := by
  induction items generalizing stack with
  | nil =>
      obtain ⟨value, rfl⟩ := List.length_eq_one_iff.mp (Option.some.inj hdepth)
      exact ⟨value, rfl, by simpa using hstack⟩
  | cons item items ih =>
      obtain ⟨hitem, hrest⟩ := List.forall_mem_cons.mp hitems
      have htaken (count : Nat) :
          ∀ operand ∈ (stack.take count).reverse, Canonical .free operand := fun operand hmem =>
        hstack operand (List.mem_of_mem_take (List.mem_reverse.mp hmem))
      have hleft {count : Nat} {value : Expr} (hvalue : Canonical .free value) :
          ∀ operand ∈ value :: stack.drop count, Canonical .free operand :=
        List.forall_mem_cons.mpr
          ⟨hvalue, fun operand hmem => hstack operand (List.mem_of_mem_drop hmem)⟩
      cases hitem with
      | operand hvalue =>
          exact ih hrest (List.forall_mem_cons.mpr ⟨hvalue, hstack⟩) hdepth
      | @operator operator hoperator =>
          rw [depthAfter] at hdepth
          split_ifs at hdepth with hle
          have hcount : (stack.take operator.arity).reverse.length =
              operator.operation.operands.length := by
            rw [List.length_reverse, List.length_take_of_le hle, arity_eq hoperator]
          obtain ⟨value, hvalue, hcanonical⟩ :=
            h.exists_operateWith read hcount (htaken operator.arity)
          rw [evaluateItems, hvalue]
          exact ih hrest (hleft hcanonical) (by simpa using hdepth)
      | @call name count haccepts =>
          rw [depthAfter] at hdepth
          split_ifs at hdepth with hle
          rw [← List.length_take_of_le hle, ← List.length_reverse] at haccepts
          obtain ⟨value, hvalue, hcanonical⟩ := h.exists_callWith read haccepts (htaken count)
          rw [evaluateItems, hvalue]
          exact ih hrest (hleft hcanonical) (by simpa using hdepth)

end Environment

/-! ## Texts -/

open Environment Phrase Postfix SyntaxTree

theorem mem_argsPostorder {α : Type} {args : List (SyntaxTree α)} {item : PostfixItem α}
    (h : item ∈ argsPostorder args) : ∃ arg ∈ args, item ∈ arg.postorder := by
  induction args with
  | nil => cases h
  | cons arg args ih =>
      rcases List.mem_append.mp h with hmem | hmem
      · exact ⟨arg, List.mem_cons_self, hmem⟩
      · obtain ⟨other, hother, hitem⟩ := ih hmem
        exact ⟨other, List.mem_cons_of_mem _ hother, hitem⟩

/-- The postorder of a tree over the standard operators has items whose evaluation cannot fail. -/
theorem Grouped.applicable {scope : Grammar Expr} {product : Operator} {tree : SyntaxTree Expr}
    (h : Grouped scope product tree) (hproduct : product ∈ OperatorTable.standard.operators)
    (haccepts : scope.accepts = FunctionTable.standard.accepts) (hover : Over .standard tree)
    (hoperands : ∀ value, .operand value ∈ tree.atoms → Canonical .free value) :
    ∀ item ∈ tree.postorder, Applicable item := by
  induction h with
  | operand value =>
      simp only [postorder, List.mem_singleton, forall_eq]
      exact .operand (hoperands value (by simp [SyntaxTree.atoms]))
  | @call name args hcount _ ih =>
      have harg {atom : Atom Expr} {arg : SyntaxTree Expr} (hmem : arg ∈ args)
          (hatom : atom ∈ arg.atoms) : atom ∈ (SyntaxTree.call name args).atoms := by
        simp [SyntaxTree.atoms, mem_argsAtoms hmem hatom]
      intro item hitem
      rcases List.mem_append.mp hitem with hmem | hmem
      · obtain ⟨arg, hargs, hmem⟩ := mem_argsPostorder hmem
        exact ih arg hargs (fun operator h => hover operator (harg hargs h))
          (fun value h => hoperands value (harg hargs h)) item hmem
      · cases List.mem_singleton.mp hmem
        exact .call (haccepts ▸ hcount)
  | bracket _ ih =>
      exact ih (fun operator h => hover operator (by simp [SyntaxTree.atoms, h]))
        fun value h => hoperands value (by simp [SyntaxTree.atoms, h])
  | @before operator _ _ _ _ ih | @after operator _ _ _ _ ih =>
      refine List.forall_mem_append.mpr ⟨ih
        (fun operator h => hover operator (by simp [SyntaxTree.atoms, h]))
        (fun value h => hoperands value (by simp [SyntaxTree.atoms, h])), ?_⟩
      simp only [List.mem_singleton, forall_eq]
      exact .operator (hover operator (by simp [SyntaxTree.atoms]))
  | @between operator written left right _ _ _ _ _ hwritten ihleft ihright =>
      have hoperator : operator ∈ OperatorTable.standard.operators := by
        cases written with
        | true => exact hover operator (by simp [SyntaxTree.atoms, mark])
        | false => exact (hwritten rfl).1 ▸ hproduct
      refine List.forall_mem_append.mpr ⟨List.forall_mem_append.mpr ⟨?_, ?_⟩, ?_⟩
      · exact ihleft (fun operator h => hover operator (by simp [SyntaxTree.atoms, h]))
          fun value h => hoperands value (by simp [SyntaxTree.atoms, h])
      · exact ihright (fun operator h => hover operator (by simp [SyntaxTree.atoms, h]))
          fun value h => hoperands value (by simp [SyntaxTree.atoms, h])
      · simp only [List.mem_singleton, forall_eq]
        exact .operator hoperator

/-- The operands among the atoms are what numbers and names stand for. -/
theorem Splits.operand_of_mem {α : Type} {scope : Grammar α} {expecting : Bool}
    {tokens : List Token} {atoms : List (Atom α)} (h : Splits scope expecting tokens atoms)
    {value : α} (hvalue : .operand value ∈ atoms) :
    (∃ text, scope.number text = .ok value) ∨
      ∃ text position, scope.name text position = .ok value := by
  induction h with
  | nil => cases hvalue
  | number _ hnumber _ ih =>
      rcases List.mem_cons.mp hvalue with heq | hmem
      · cases heq
        exact .inl ⟨_, hnumber⟩
      · exact ih hmem
  | name _ _ _ hname _ ih =>
      rcases List.mem_cons.mp hvalue with heq | hmem
      · cases heq
        exact .inr ⟨_, _, hname⟩
      · exact ih hmem
  | call _ _ _ _ ih | opening _ _ ih | closing _ _ ih | comma _ _ ih =>
      exact ih (by simpa using hvalue)
  | run _ _ _ ih => exact ih (by simpa using hvalue)

namespace Environment

variable {env : Environment} {read : Reader}

/-- Numbers and names denote canonical expressions. -/
theorem Suppresses.canonical_operand (h : env.Suppresses) {expecting : Bool} {tokens : List Token}
    {atoms : List (Atom Expr)}
    (hsplits : Splits (env.grammar read .standard []) expecting tokens atoms) {value : Expr}
    (hvalue : .operand value ∈ atoms) : Canonical .free value := by
  rcases hsplits.operand_of_mem hvalue with ⟨text, hnumber⟩ | ⟨name, position, hname⟩
  · obtain ⟨number, -, hnumber⟩ := exists_of_bind hnumber
    cases hnumber
    exact .number number
  · have hfree := hname
    simp only [grammar, operand_eq h.bindings, freeName, h.numeric, Bool.false_eq_true,
      if_false] at hfree
    have hnamed : Expr.named name = value := by
      split_ifs at hfree
      split at hfree <;> exact Except.ok.inj hfree
    exact hnamed ▸ .symbol one_ne_zero one_ne_zero trivial

/-- A text without substitutions has a parse fault, or its value is that of the postorder of a
tree that precedence allows. -/
theorem readWith_cases (hbindings : env.settings.bindings = []) (hconstants : env.HasConstants)
    (read : Reader) (text : String) :
    (∃ cause position, env.readWith read .standard [] text = .error (.parse cause position) ∧
        position ≤ text.length) ∨
      ∃ tokens tree, Grouped (env.grammar read .standard []) multiplying tree ∧
        Splits (env.grammar read .standard []) true tokens tree.atoms ∧
        env.readWith read .standard [] text = env.evaluateItems read [] tree.postorder := by
  have hproduct : OperatorTable.standard.find? "*" .between = some multiplying := by decide
  have hscan := Token.located_scan (env.alphabet .standard) 0 false text.toList
  rw [Nat.zero_add, String.length_toList] at hscan
  rw [Environment.readWith]
  cases htokens : env.tokens .standard text with
  | error fault =>
      obtain ⟨cause, position, rfl, hposition⟩ := hscan fault htokens
      exact .inl ⟨cause, position, rfl, hposition⟩
  | ok tokens =>
      have hlexed := Token.spec_of_mem_scan htokens
      rw [Nat.zero_add, String.length_toList] at hlexed
      have hlocated : Located (fun place => place ≤ text.length)
          (ofTokens (env.grammar read .standard []) tokens text.length) := by
        refine located_ofTokens hproduct (located_operand read hbindings hconstants)
          (fun token htoken hkind => ?_) (fun token htoken offset hoffset => ?_) le_rfl
        · obtain ⟨value, hvalue⟩ := (hlexed token htoken).1.number hkind
          simp only [grammar, hvalue]
          exact located_ok _
        · have := (hlexed token htoken).2
          omega
      cases hempty : tokens.isEmpty with
      | true => exact .inl ⟨.empty, 0, by simp only [bind, Except.bind, hempty]; rfl, Nat.zero_le _⟩
      | false =>
          simp only [bind, Except.bind, hempty, Bool.false_eq_true, if_false]
          cases hitems : ofTokens (env.grammar read .standard []) tokens text.length with
          | error fault =>
              obtain ⟨cause, position, rfl, hposition⟩ := hlocated fault hitems
              exact .inl ⟨cause, position, rfl, hposition⟩
          | ok items =>
              obtain ⟨tree, hgrouped, hsplits, rfl⟩ := (ofTokens_eq_ok_iff hproduct
                (free_of_operand read)
                (fun token htoken _ => (hlexed token htoken).1.ne) text.length).mp hitems
              exact .inr ⟨tokens, tree, hgrouped, hsplits, rfl⟩

theorem Suppresses.readWith (h : env.Suppresses) (read : Reader) (text : String) :
    (∃ node, env.readWith read .standard [] text = .ok node ∧ Canonical .free node) ∨
      ∃ cause position, env.readWith read .standard [] text = .error (.parse cause position) ∧
        position ≤ text.length := by
  have hconstants : env.HasConstants := fun hnumeric => by
    rw [h.numeric] at hnumeric
    cases hnumeric
  obtain hparse | ⟨tokens, tree, hgrouped, hsplits, hread⟩ :=
    readWith_cases h.bindings hconstants read text
  · exact .inr hparse
  · have haccepts : (env.grammar read .standard []).accepts = FunctionTable.standard.accepts := by
      rw [← h.functions]
      rfl
    have hdepth : depthAfter 0 tree.postorder = some 1 := by
      have hall := hgrouped.depthAfter_postorder 0 []
      rwa [List.append_nil] at hall
    have hmem : multiplying ∈ OperatorTable.standard.operators := by decide
    rw [hread]
    have happlicable := hgrouped.applicable hmem haccepts hsplits.mem fun value =>
      h.canonical_operand hsplits
    exact .inl (h.exists_evaluateItems read happlicable (by simp) hdepth)

end Environment

end ExactAlgebra
