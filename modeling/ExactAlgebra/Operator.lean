import ExactAlgebra.Fault

/-!
# Operators

An operator stands between, before or after its operands.  A table lists the
operators of a notation; one symbol may stand for several operators as long as
their roles differ.  In a run of operator characters the longest symbol wins.
-/

namespace ExactAlgebra

/-! ## Operators -/

/-- The position of an operator relative to its operands. -/
inductive Role where
  | between
  | before
  | after
  deriving DecidableEq, Repr

/-- The grouping of operators with equal precedence. -/
inductive Associativity where
  | left
  | right
  deriving DecidableEq, Repr

/-- What an operator does. -/
inductive Operation where
  | add
  | subtract
  | multiply
  | divide
  | pow
  | negate
  | invert
  | identity
  | factorial
  | doubleFactorial
  | percent
  deriving DecidableEq, Repr

namespace Operation

/-- The name of an operation, as faults report it. -/
def name : Operation → String
  | add => "add"
  | subtract => "subtract"
  | multiply => "multiply"
  | divide => "divide"
  | pow => "pow"
  | negate => "negate"
  | invert => "invert"
  | identity => "_identity"
  | factorial => "_factorial"
  | doubleFactorial => "_double_factorial"
  | percent => "_percent"

/-- The names of the operands. -/
def operands : Operation → List String
  | add | subtract | multiply | divide | pow => ["a", "b"]
  | negate | invert | identity | factorial | doubleFactorial | percent => ["a"]

/-- The fault of an operation with another number of operands than it takes. -/
def countFault (operation : Operation) (count : Nat) : Fault :=
  let expected := operation.operands
  if count < expected.length then
    .missingOperands operation.name (expected.drop count)
  else .surplusOperands operation.name expected.length expected.length count

end Operation

namespace Role

def text : Role → String
  | between => "binary"
  | before => "prefix"
  | after => "postfix"

def all : List Role := [between, before, after]

def ofText (name : String) : Except Fault Role :=
  match all.find? fun role => role.text == name with
  | some role => .ok role
  | none => .error (.noKey name)

end Role

namespace Associativity

def text : Associativity → String
  | left => "left"
  | right => "right"

end Associativity

/-- An operator of a notation. -/
structure Operator where
  symbol : String
  operation : Operation
  precedence : Int
  associativity : Associativity
  role : Role
  deriving DecidableEq, Repr

namespace Operator

/-- The operator with named role and associativity. -/
def create (symbol : String) (operation : Operation) (precedence : Int)
    (associativity role : String) : Except Fault Operator :=
  match Role.all.find? fun known => known.text == role with
  | none => .error (.unknownRole role)
  | some place =>
      if associativity = "left" then .ok ⟨symbol, operation, precedence, .left, place⟩
      else if associativity = "right" then .ok ⟨symbol, operation, precedence, .right, place⟩
      else .error (.unknownAssociativity associativity)

/-- The number of operands. -/
def arity (operator : Operator) : Nat :=
  match operator.role with
  | .between => 2
  | .before | .after => 1

/-- True if the operator, already waiting for its right operand, is applied before
`next` gets its left one. -/
def yieldsTo (operator next : Operator) : Bool :=
  match operator.role, next.role with
  | .after, _ => true
  | _, .before => false
  | _, _ =>
      match next.associativity with
      | .left => decide (next.precedence ≤ operator.precedence)
      | .right => decide (next.precedence < operator.precedence)

/-- Operators with one symbol and one role are the same operator. -/
def same (a b : Operator) : Bool := a.symbol == b.symbol && a.role == b.role

def text (operator : Operator) : String :=
  operator.role.text ++ " " ++ Text.quoted operator.symbol

end Operator

/-! ## Tables -/

/-- The operators of a notation. -/
structure OperatorTable where
  operators : List Operator
  deriving DecidableEq, Repr

namespace OperatorTable

def find? (table : OperatorTable) (symbol : String) (role : Role) : Option Operator :=
  table.operators.find? fun operator => operator.symbol == symbol && operator.role == role

/-- Adds an operator; an operator with its symbol and role is replaced only if
that is asked for. -/
def register (table : OperatorTable) (operator : Operator) (overwrite : Bool) :
    Except Fault OperatorTable :=
  match table.find? operator.symbol operator.role with
  | none => .ok ⟨table.operators ++ [operator]⟩
  | some _ =>
      if overwrite then
        .ok ⟨table.operators.map fun old => if old.same operator then operator else old⟩
      else .error (.operatorExists operator.role.text operator.symbol)

/-- Removes an operator and returns it. -/
def remove (table : OperatorTable) (symbol : String) (role : Role) :
    Except Fault (Operator × OperatorTable) :=
  match table.find? symbol role with
  | none => .error (.noKey symbol)
  | some operator =>
      .ok (operator, ⟨table.operators.filter fun old => !old.same operator⟩)

/-- True for the characters of operator symbols. -/
def hasCharacter (table : OperatorTable) (c : Char) : Bool :=
  table.operators.any fun operator => operator.symbol.toList.contains c

/-- The characters of operator symbols, in ascending order. -/
def characters (table : OperatorTable) : List Char :=
  ((table.operators.flatMap fun operator => operator.symbol.toList).mergeSort
    fun a b => decide (a ≤ b)).eraseDups

/-- The symbols with a role, in ascending order. -/
def symbols (table : OperatorTable) (role : Role) : List String :=
  ((table.operators.filter fun operator => operator.role == role).map
    Operator.symbol).mergeSort fun a b => decide (a ≤ b)

/-- The operator with the longest symbol that starts with `first` and goes on with
at most `count` characters of `rest`, and how many of those it takes. -/
def longestFrom? (table : OperatorTable) (role : Role) (first : Char) (rest : List Char) :
    (count : Nat) → Option (Operator × Nat)
  | 0 => (table.find? (String.singleton first) role).map fun operator => (operator, 0)
  | count + 1 =>
      match table.find? (String.ofList (first :: rest.take (count + 1))) role with
      | some operator => some (operator, count + 1)
      | none => longestFrom? table role first rest count

/-- The longest operator at the start of a run, and the rest of the run. -/
def longest? (table : OperatorTable) (role : Role) : List Char → Option (Operator × List Char)
  | [] => none
  | first :: rest =>
      (table.longestFrom? role first rest rest.length).map
        fun (operator, count) => (operator, rest.drop count)

/-- What follows the longest operator is shorter than the run. -/
theorem length_of_longest? {table : OperatorTable} {role : Role} {run rest : List Char}
    {operator : Operator} (h : table.longest? role run = some (operator, rest)) :
    rest.length < run.length := by
  cases run with
  | nil => simp [longest?] at h
  | cons first tail =>
      simp only [longest?, Option.map_eq_some_iff] at h
      obtain ⟨⟨found, count⟩, -, heq⟩ := h
      simp only [Prod.mk.injEq] at heq
      rw [← heq.2, List.length_drop, List.length_cons]
      omega

/-- The operators of the standard notation. -/
def standard : OperatorTable := ⟨[
  ⟨"+", .add, 1, .left, .between⟩,
  ⟨"-", .subtract, 1, .left, .between⟩,
  ⟨"*", .multiply, 2, .left, .between⟩,
  ⟨"/", .divide, 2, .left, .between⟩,
  ⟨"+", .identity, 3, .right, .before⟩,
  ⟨"-", .negate, 3, .right, .before⟩,
  ⟨"^", .pow, 4, .right, .between⟩,
  ⟨"**", .pow, 4, .right, .between⟩,
  ⟨"!", .factorial, 5, .left, .after⟩,
  ⟨"!!", .doubleFactorial, 5, .left, .after⟩,
  ⟨"%", .percent, 5, .left, .after⟩]⟩

end OperatorTable

end ExactAlgebra
