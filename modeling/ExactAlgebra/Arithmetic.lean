import ExactAlgebra.Reduce.Product

/-!
# Exact arithmetic on expressions

The operations that other parts of the library use.  Each is run with more and
more depth for nested calls, until the depth is enough.  Quotients and powers
answer a domain fault by an unevaluated call if the mode asks for that.
-/

namespace ExactAlgebra.Arithmetic

open Reduce

/-! ## Depth -/

/-- The first among the depths `depth`, `2 * depth`, `4 * depth` and so on that is enough
for a run. -/
def deepen (run : Nat → Except Fault Expr) (depth : Nat) : Nat :=
  Id.run (repeatM (fun depth => match run depth with
    | .error .exhausted => pure (.inl (2 * depth))
    | _ => pure (.inr depth)) depth)

/-- The depth that is tried first. -/
def firstDepth : Nat := 1024

/-- The outcome of a run with as much depth as it takes. -/
def settled (run : Nat → Except Fault Expr) : Except Fault Expr :=
  match run firstDepth with
  | .error .exhausted => run (max firstDepth (deepen run (2 * firstDepth)))
  | outcome => outcome

/-! ## Suppression of domain faults -/

/-- Replaces a domain fault by another outcome if the mode suppresses errors. -/
def guarded (mode : Mode) (outcome fallback : Except Fault Expr) : Except Fault Expr :=
  match outcome with
  | .error fault => if mode.suppressErrors && fault.isDomain then fallback else .error fault
  | .ok node => .ok node

/-- The call `pow(a, b)`. -/
def unevaluatedPower (a b : Expr) : Expr := .apply "pow" [a, b]

/-! ## Operations -/

def add (a b : Expr) : Except Fault Expr := plus a b

def negate (a : Expr) : Expr := scale (-1) a

def subtract (a b : Expr) : Except Fault Expr := plus a (negate b)

def multiply (mode : Mode) (a b : Expr) : Except Fault Expr :=
  settled fun depth => combineFactors mode depth a b

/-- The quotient without suppression.  Equal contents cancel. -/
def quotient (mode : Mode) (a b : Expr) : Except Fault Expr :=
  if (a.isNumber && b.isNumber) || a.content == b.content then
    return .number (← Strict.divide a.coeff b.coeff)
  else do
    let inverse ← settled fun depth => raiseTo mode depth b (.number (-1))
    multiply mode a inverse

def divide (mode : Mode) (a b : Expr) : Except Fault Expr :=
  guarded mode (quotient mode a b) (multiply mode a (unevaluatedPower b (.number (-1))))

def pow (mode : Mode) (a b : Expr) : Except Fault Expr :=
  guarded mode (settled fun depth => raiseTo mode depth a b) (.ok (unevaluatedPower a b))

def invert (mode : Mode) (a : Expr) : Except Fault Expr := pow mode a (.number (-1))

end ExactAlgebra.Arithmetic
