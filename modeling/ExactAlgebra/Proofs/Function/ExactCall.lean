import ExactAlgebra.Environment

/-!
# Exact results of calls

An exact result of the rule of a built-in function is the result of the call, in numeric mode as
well.  In exact mode a call without one stays as it is.
-/

namespace ExactAlgebra.Environment

variable {env : Environment} {name : String} {arity : Arity} {rule : Rule} {args : List Expr}
  {outcome : Option Expr}

theorem evaluateCall_exact (hexact : env.mode.numeric = false) (read : Reader) (name : String)
    (rule : Rule) (args : List Expr) : env.evaluateCall read name (.builtIn rule) args =
      rule.exact env.mode args >>= fun outcome => .ok (outcome.getD (.apply name args)) := by
  simp only [evaluateCall, hexact, Bool.false_eq_true, if_false]
  cases rule.exact env.mode args with
  | error fault => rfl
  | ok outcome =>
      cases outcome with
      | some result => rfl
      | none =>
          simp only [bind, Except.bind, Option.getD_none]
          split <;> rfl

/-- A call of a built-in function that accepts its arguments. -/
theorem call_builtIn (hexact : env.mode.numeric = false)
    (hentry : env.functions.get? name = some ⟨arity, .builtIn rule⟩)
    (haccepts : arity.accepts args.length = true)
    (houtcome : rule.exact env.mode args = .ok outcome) :
    env.call name args = .ok (outcome.getD (.apply name args)) := by
  rw [call, callWith, hentry]
  simp only [haccepts, if_true, evaluateCall_exact hexact, houtcome]
  rfl

/-- A call of a built-in function that accepts its arguments and has an exact result. -/
theorem call_of_exact {result : Expr}
    (hentry : env.functions.get? name = some ⟨arity, .builtIn rule⟩)
    (haccepts : arity.accepts args.length = true)
    (hresult : rule.exact env.mode args = .ok (some result)) :
    env.call name args = .ok result := by
  rw [call, callWith, hentry]
  simp only [haccepts, if_true, evaluateCall, hresult]
  rfl

end ExactAlgebra.Environment
