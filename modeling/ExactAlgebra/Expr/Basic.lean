import ExactAlgebra.Expr.Key

/-!
# Expressions

An expression is a rational coefficient times a body with an exponent.  There is
one constructor for each structural class.  Sums and products hold their children
in slots: a list of pairs of merge key and child, in the order of insertion.

Three keys are read off an expression.  The base key forgets coefficient and
exponent, so that factors of equal base key combine by adding exponents.  The
additive and the multiplicative key say which slot of a sum or product the
expression takes.
-/

namespace ExactAlgebra

/-- An expression in one of the eight structural classes. -/
inductive Expr where
  /-- A rational constant. -/
  | number (value : Rat)
  /-- A rational power of a constant, such as `2 ^ (1/2)`. -/
  | radical (coeff base power : Rat)
  /-- A rational power of a variable. -/
  | symbol (coeff : Rat) (name : String) (power : Rat)
  /-- A power with an exponent that is no constant, such as `x ^ y` or `2 ^ x`. -/
  | exponential (coeff : Rat) (base exponent : Expr)
  /-- A rational power of a function call. -/
  | call (coeff : Rat) (name : String) (args : List Expr) (power : Rat)
  /-- A sum of terms with one base and several exponents. -/
  | polynomial (coeff power : Rat) (terms : List (Key × Expr))
  /-- A product of factors with several bases. -/
  | product (coeff power : Rat) (factors : List (Key × Expr))
  /-- A sum of dissimilar terms. -/
  | composite (coeff power : Rat) (terms : List (Key × Expr))
  deriving Inhabited

/-- The children of a sum or product, each under its merge key. -/
abbrev Slots := List (Key × Expr)

/-- An exponent: a rational, or an expression that is no constant. -/
inductive Exponent where
  | rational (value : Rat)
  | symbolic (value : Expr)

/-! ## Slots -/

namespace Slots

def find? (key : Key) : Slots → Option Expr
  | [] => none
  | (other, child) :: rest => if other = key then some child else find? key rest

/-- Puts a child into its slot, or into a new last slot. -/
def put (key : Key) (child : Expr) : Slots → Slots
  | [] => [(key, child)]
  | (other, old) :: rest =>
      if other = key then (key, child) :: rest else (other, old) :: put key child rest

/-- Removes a slot. -/
def erase (key : Key) (slots : Slots) : Slots :=
  slots.filter fun slot => slot.1 != key

/-- The slots of a list of children; a later child replaces an earlier one. -/
def ofList (children : List (Key × Expr)) : Slots :=
  children.foldl (fun slots child => put child.1 child.2 slots) []

def children (slots : Slots) : List Expr := slots.map Prod.snd

end Slots

namespace Expr

/-! ## Parts -/

def group : Expr → Group
  | number _ => .number
  | radical .. => .radical
  | symbol .. => .symbol
  | exponential .. => .exponential
  | call .. => .call
  | polynomial .. => .polynomial
  | product .. => .product
  | composite .. => .composite

/-- The rational coefficient; that of a constant is the constant. -/
def coeff : Expr → Rat
  | number value => value
  | radical coeff .. => coeff
  | symbol coeff .. => coeff
  | exponential coeff .. => coeff
  | call coeff .. => coeff
  | polynomial coeff .. => coeff
  | product coeff .. => coeff
  | composite coeff .. => coeff

def withCoeff (coeff : Rat) : Expr → Expr
  | number _ => number coeff
  | radical _ base power => radical coeff base power
  | symbol _ name power => symbol coeff name power
  | exponential _ base exponent => exponential coeff base exponent
  | call _ name args power => call coeff name args power
  | polynomial _ power terms => polynomial coeff power terms
  | product _ power factors => product coeff power factors
  | composite _ power terms => composite coeff power terms

/-- The rational exponent; one for an exponential. -/
def degreePower : Expr → Rat
  | number _ => 1
  | radical _ _ power => power
  | symbol _ _ power => power
  | exponential .. => 1
  | call _ _ _ power => power
  | polynomial _ power _ => power
  | product _ power _ => power
  | composite _ power _ => power

/-- The exponent. -/
def exponent : Expr → Exponent
  | exponential _ _ exponent => .symbolic exponent
  | node => .rational node.degreePower

/-- Replaces a rational exponent; constants and exponentials have none. -/
def withPower (power : Rat) : Expr → Expr
  | number value => number value
  | radical coeff base _ => radical coeff base power
  | symbol coeff name _ => symbol coeff name power
  | exponential coeff base exponent => exponential coeff base exponent
  | call coeff name args _ => call coeff name args power
  | polynomial coeff _ terms => polynomial coeff power terms
  | product coeff _ factors => product coeff power factors
  | composite coeff _ terms => composite coeff power terms

/-- The slots of a sum or product; other expressions have none. -/
def slots : Expr → Slots
  | polynomial _ _ terms => terms
  | product _ _ factors => factors
  | composite _ _ terms => terms
  | _ => []

def withSlots (slots : Slots) : Expr → Expr
  | polynomial coeff power _ => polynomial coeff power slots
  | product coeff power _ => product coeff power slots
  | composite coeff power _ => composite coeff power slots
  | node => node

/-- A variable. -/
def named (name : String) : Expr := symbol 1 name 1

/-- An unevaluated function call. -/
def apply (name : String) (args : List Expr) : Expr := call 1 name args 1

/-! ## Classes -/

def isNumber : Expr → Bool
  | number _ => true
  | _ => false

def isZero : Expr → Bool
  | number value => value == 0
  | _ => false

def isOne : Expr → Bool
  | number value => value == 1
  | _ => false

/-- The value of a constant. -/
def constant? : Expr → Option Rat
  | number value => some value
  | _ => none

/-- True for sums, whatever their exponent. -/
def isSum : Expr → Bool
  | polynomial .. | composite .. => true
  | _ => false

/-- True for sums with exponent one. -/
def isExpandedSum (node : Expr) : Bool := node.isSum && node.degreePower == 1

/-- True for sums with an exponent other than one. -/
def isAtomSum (node : Expr) : Bool := node.isSum && node.degreePower != 1

/-- True for the plain variable of a given name. -/
def isNamed (name : String) : Expr → Bool
  | symbol coeff other power => other == name && coeff == 1 && power == 1
  | _ => false

/-! ## Size -/

mutual

/-- The number of constructors in an expression. -/
def weight : Expr → Nat
  | number _ | radical .. | symbol .. => 1
  | exponential _ base exponent => base.weight + exponent.weight + 1
  | call _ _ args _ => argsWeight args + 1
  | polynomial _ _ terms => slotsWeight terms + 1
  | product _ _ factors => slotsWeight factors + 1
  | composite _ _ terms => slotsWeight terms + 1

def argsWeight : List Expr → Nat
  | [] => 0
  | arg :: args => arg.weight + argsWeight args

def slotsWeight : List (Key × Expr) → Nat
  | [] => 0
  | (_, child) :: rest => child.weight + slotsWeight rest

end

/-! ## Identities -/

/-- The mark of constants in identities. -/
def constantMark : Key := .cons (.name "#") .nil

mutual

/-- The structural identity without the coefficient. -/
def content : Expr → Key
  | number _ => constantMark
  | radical _ base power =>
      .tuple [.group .radical, .rational base, .rational power]
  | symbol _ name power =>
      .tuple [.group .symbol, .name name, .rational power]
  | exponential _ base exponent =>
      .tuple [.group .exponential, .cons (.rational base.coeff) base.content,
        .cons (.rational exponent.coeff) exponent.content]
  | call _ name args power =>
      .tuple [.group .call, .name name, .tuple (argsSignatures args), .rational power]
  | polynomial _ power terms =>
      .tuple [.group .polynomial, .setOf (slotsSignatures terms), .rational power]
  | product _ power factors =>
      .tuple [.group .product, .setOf (slotsSignatures factors), .rational power]
  | composite _ power terms =>
      .tuple [.group .composite, .setOf (slotsSignatures terms), .rational power]

def argsSignatures : List Expr → List Key
  | [] => []
  | arg :: args => .cons (.rational arg.coeff) arg.content :: argsSignatures args

def slotsSignatures : List (Key × Expr) → List Key
  | [] => []
  | (_, child) :: rest =>
      .cons (.rational child.coeff) child.content :: slotsSignatures rest

end

/-- The full structural identity. -/
def signature (node : Expr) : Key := .cons (.rational node.coeff) node.content

/-- True for expressions of one structural identity, in whatever order their
children are. -/
def equals (a b : Expr) : Bool := a.signature == b.signature

/-- The identity without coefficient and exponent.  An exponential with a constant
base has a key of its own, so that it never merges with a radical. -/
def baseKey : Expr → Key
  | number value => .cons (.rational value) constantMark
  | radical _ base _ => .cons (.rational base) constantMark
  | exponential _ (number value) _ =>
      .cons (.group .exponential) (.cons (.rational value) constantMark)
  | exponential _ base _ => base.signature
  | node => .cons (.rational 1) (node.withPower 1).content

/-- The slot of a term in a sum.  Terms whose base can carry several exponents go
by their base, all others by their content. -/
def additiveKey (node : Expr) : Key :=
  match node with
  | number _ => constantMark
  | symbol .. | call .. => node.baseKey
  | polynomial _ power terms =>
      if power = 1 then
        match terms with
        | (_, child) :: _ => child.baseKey
        | [] => node.content
      else node.baseKey
  | composite _ power _ => if power = 1 then node.content else node.baseKey
  | _ => node.content

/-- The slot of a factor in a product.  Negative powers of a sum merge only with
each other. -/
def multiplicativeKey (node : Expr) : Key :=
  if node.isAtomSum && decide (node.degreePower < 0) then
    .append (.rational (-1)) node.baseKey
  else node.baseKey

/-- The base, with coefficient and exponent one; a constant is its own base. -/
def baseOf : Expr → Expr
  | number value => number value
  | radical _ base _ => number base
  | exponential _ base _ => base
  | node => (node.withCoeff 1).withPower 1

end Expr

/-- The key of a child of a polynomial: its exponent. -/
def Exponent.key : Exponent → Key
  | .rational value => .rational value
  | .symbolic value => value.signature

end ExactAlgebra
