import ExactAlgebra.Environment

/-!
# Arithmetic on mixed operands

Operators also accept a value of another type beside an expression.  Texts are
read and rationals become constants; values of other types are refused, in the
words that suit the types of both operands.  Equality never refuses: a value that
is no expression is just different, except that floats are compared with
constants as floats.
-/

namespace ExactAlgebra.Mixed

/-! ## Operators -/

/-- The binary operators. -/
inductive BinaryOperator where
  | add
  | subtract
  | multiply
  | divide
  | pow
  deriving DecidableEq, Repr

namespace BinaryOperator

/-- The symbol, as faults report it. -/
def shown : BinaryOperator → String
  | add => "+"
  | subtract => "-"
  | multiply => "*"
  | divide => "/"
  | pow => "** or pow()"

def operation : BinaryOperator → Operation
  | add => .add
  | subtract => .subtract
  | multiply => .multiply
  | divide => .divide
  | pow => .pow

end BinaryOperator

/-- True for values with entries in an order. -/
def isSequence : Value → Bool
  | .list _ | .tuple _ => true
  | _ => false

/-- The type of an operand, as faults report it; a single counts as a float. -/
def operandType : Value → String
  | .single _ => "float"
  | value => value.shortType

/-- The fault of operands that do not go together. -/
def mismatch (operator : BinaryOperator) (a b : Value) : Fault :=
  match operator, isSequence a, isSequence b with
  | .add, true, _ => .joinedSequence a.shortType (operandType b)
  | .multiply, true, _ => .repeatedSequence (operandType b)
  | .multiply, false, true => .repeatedSequence (operandType a)
  | _, _, _ => .unsupportedOperands operator.shown (operandType a) (operandType b)

/-- True for faults that say that a value has the wrong type. -/
def isTypeFault (fault : Fault) : Bool := fault.kind == .type || fault.kind == .operand

/-- A rational base has to be a float when the exponent is an expression. -/
def rationalBase (a : Rat) (b : Value) : Fault :=
  match Double.ofRat? a with
  | some _ => .unsupportedOperands BinaryOperator.pow.shown "float" (operandType b)
  | none => .floatOverflow

/-- A binary operator on values, at least one of which is an expression. -/
def combine (env : Environment) (operator : BinaryOperator) (a b : Value) :
    Except Fault Expr := do
  if let (.pow, .rational base) := (operator, a) then throw (rationalBase base b)
  match env.toExpr a >>= fun x => return (x, ← env.toExpr b) with
  | .ok (x, y) => env.operate operator.operation [x, y]
  | .error fault => throw (if isTypeFault fault then mismatch operator a b else fault)

/-! ## Equality -/

/-- True if a value can be read as an expression with the same canonical form. -/
def equals (env : Environment) (node : Expr) (value : Value) : Except Fault Bool :=
  match env.toExpr value with
  | .ok other => .ok (node.equals other)
  | .error fault =>
      if isTypeFault fault || fault.kind == .value || fault.kind == .parse then .ok false
      else .error fault

/-- An expression compared with a value of any type. -/
def equalTo (env : Environment) (node : Expr) (value : Value) : Except Fault Bool :=
  match value with
  | .node _ | .bool _ | .integer _ | .rational _ | .text _ => equals env node value
  | .float other | .single other =>
      match node.constant? with
      | some constant => return (← Reduce.floatOf constant) == other
      | none => .ok false
  | _ => .ok false

/-- Equality of values, of which one may be an expression. -/
def equal (env : Environment) (a b : Value) : Except Fault Bool :=
  match a, b with
  | .node node, other | other, .node node => equalTo env node other
  | _, _ => .ok (a.same b)

/-! ## Conversion to numbers -/

/-- The value of a constant. -/
def constant (node : Expr) (type : String) : Except Fault Rat :=
  match node.constant? with
  | some value => .ok value
  | none => .error (.notConstant node.toText type)

/-- The integer part of a constant. -/
def toInteger (node : Expr) : Except Fault Int :=
  return Ratio.truncate (← constant node (Value.integer 0).type)

/-- The float nearest to a constant. -/
def toFloat (node : Expr) : Except Fault Float := do
  Reduce.floatOf (← constant node (Value.float 0).type)

/-- The expression that a value is. -/
def require (value : Value) (operation : Option String) : Except Fault Expr :=
  match value with
  | .node node => .ok node
  | value => .error (.notExpression value.type operation)

end ExactAlgebra.Mixed
