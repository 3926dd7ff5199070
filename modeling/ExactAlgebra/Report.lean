import ExactAlgebra.Value

/-!
# Reports

A report tells of a fault in words of the caller: a description, and details that
depend on the kind of the fault.
-/

namespace ExactAlgebra

/-- The kinds of reports. -/
inductive Report where
  | general
  | parse
  | domain
  | divisionByZero
  | operand
  deriving DecidableEq, Repr

namespace Report

/-- The description alone; several details are shown as a tuple. -/
def description : List Value → String
  | [] => ""
  | [detail] => detail.plain
  | details => (Value.tuple details).shown

/-- The fault of a report with the wrong number of details, the first of which has
a name. -/
def countFault (name first : String) (count : Nat) : Fault :=
  if count = 0 then .missingOperands name [first] else .surplusOperands name 2 3 (count + 1)

/-- The text of a report with details. -/
def text (report : Report) (details : List Value) : Except Fault String :=
  match report with
  | general | domain => .ok (description details)
  | divisionByZero =>
      let given := description details
      .ok (if given.isEmpty then "Division by zero" else given)
  | parse =>
      match details with
      | [.text message] | [.text message, .none] => .ok message
      | [message] | [message, .none] => .error (.notPlain message.shortType)
      | [message, position] =>
          .ok (message.plain ++ " (at position " ++ position.plain ++ ")")
      | details => .error (countFault "ParseError.__init__" "message" details.length)
  | operand =>
      match details with
      | [value] => .ok (Fault.notExpression value.type none).message
      | [value, operation] =>
          .ok (Fault.notExpression value.type
            (if operation.truth then some operation.plain else none)).message
      | details => .error (countFault "InvariantViolation.__init__" "arg" details.length)

end Report

end ExactAlgebra
