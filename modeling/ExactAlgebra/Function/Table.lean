import ExactAlgebra.Arithmetic
import ExactAlgebra.Function.Approximation
import ExactAlgebra.Registry
import ExactAlgebra.Text.Identifier

/-!
# Functions

A built-in function has a rule that gives an exact result where there is one, and
perhaps a method on floats.  A user-defined function has parameters and a body in
infix text.  Both stand in one table under their names, with the numbers of
arguments that they accept.
-/

namespace ExactAlgebra

/-! ## Entries -/

/-- The numbers of arguments that a function accepts. -/
structure Arity where
  least : Nat
  most : Option Nat
  deriving DecidableEq, Repr

namespace Arity

def exactly (count : Nat) : Arity := ⟨count, some count⟩

def accepts (arity : Arity) (count : Nat) : Bool :=
  decide (arity.least ≤ count) &&
    match arity.most with
    | some most => decide (count ≤ most)
    | none => true

end Arity

/-- How a built-in function is evaluated. -/
structure Rule where
  /-- The exact result, if there is one. -/
  exact : Mode → List Expr → Except Fault (Option Expr)
  /-- The value on floats; there is none outside of the domain. -/
  approximate : Option (List Float → Option Float)

/-- What a function does. -/
inductive Definition where
  | builtIn (rule : Rule)
  | byBody (parameters : List String) (body : String)

/-- A function in the table. -/
structure FunctionEntry where
  arity : Arity
  definition : Definition

/-- The functions by name. -/
abbrev FunctionTable := Registry FunctionEntry

/-! ## Exact rules -/

namespace Rule

open Arithmetic

def noResult : Except Fault (Option Expr) := .ok none

def constant (value : Rat) : Except Fault (Option Expr) := .ok (some (.number value))

/-- The value of an integral constant. -/
def integer? (node : Expr) : Option Int := do
  let value ← node.constant?
  if Ratio.isInteger value then some value.num else none

/-- The rational multiple of `pi` that an expression is. -/
def piMultiple? : Expr → Option Rat
  | .number value => if value = 0 then some 0 else none
  | .symbol coeff name power => if name = "pi" ∧ power = 1 then some coeff else none
  | _ => none

/-- The integer multiple of `pi` that an expression is. -/
def piInteger? (node : Expr) : Option Int := do
  let multiple ← piMultiple? node
  if Ratio.isInteger multiple then some multiple.num else none

/-- A number or its reciprocal, whichever is no less than one. -/
def aboveOne (a : Rat) : Rat := if 1 < a then a else a⁻¹

/-- One round of repeated division: a value above one is divided, and the division counted. -/
def divisionRound (ratio : Rat) : Rat × Nat → (Rat × Nat) ⊕ (Rat × Nat)
  | (value, count) =>
      if 1 < value then .inl (value / ratio, count + 1) else .inr (value, count)

/-- What is left of a value when it is divided for as long as it is above one, and the number
of divisions. -/
def divisions (ratio : Rat) (state : Rat × Nat) : Rat × Nat :=
  Id.run (repeatM (fun state => pure (divisionRound ratio state)) state)

/-- The integral logarithm of a positive number to a positive base other than
one. -/
def integralLog? (n b : Rat) : Option Int :=
  if 0 < n ∧ 0 < b then
    let (rest, count) := divisions (aboveOne b) (aboveOne n, 0)
    if rest ≠ 1 ∨ count = 0 then none
    else some (if decide (1 < n) == decide (1 < b) then (count : Int) else -(count : Int))
  else none

def exactLog (x base : Expr) : Except Fault (Option Expr) :=
  match x.constant?, base.constant? with
  | some n, some b => .ok ((integralLog? n b).map fun k => .number k)
  | _, _ => noResult

/-- The logarithm to the base `e`. -/
def naturalLog (x : Expr) : Option Expr :=
  if x.isNamed "e" then some (.number 1)
  else match x with
    | .exponential coeff base exponent =>
        if base.isNamed "e" && coeff == 1 then some exponent else none
    | .symbol coeff name power =>
        if name == "e" && coeff == 1 then some (.number power) else none
    | _ => none

def logarithm (x : Expr) (base : Option Expr) : Except Fault (Option Expr) :=
  if x.isZero then .error (.logarithmOfZero "log")
  else if x.isOne then constant 0
  else match base with
    | none => .ok (naturalLog x)
    | some base =>
        if base.isOne || base.isZero then .error (.logarithmBase base.coeff)
        else if x.equals base then constant 1
        else exactLog x base

def commonLogarithm (x : Expr) : Except Fault (Option Expr) :=
  if x.isZero then .error (.logarithmOfZero "log10")
  else if x.isOne then constant 0
  else exactLog x (.number 10)

/-- The magnitude of a coefficient moves out of an absolute value. -/
def absolute (x : Expr) : Option Expr :=
  match x with
  | .number value => some (.number value.abs)
  | _ =>
      if x.isExpandedSum || x.coeff == 1 then none
      else some (Reduce.scale x.coeff.abs (.apply "abs" [x.withCoeff 1]))

/-- The product of the numbers from one to `n`. -/
def factorialOf : Nat → Nat
  | 0 => 1
  | n + 1 => (n + 1) * factorialOf n

/-- The product of `n`, `n - 2` and so on down to one or two. -/
def doubleFactorialOf : Nat → Nat
  | 0 => 1
  | 1 => 1
  | n + 2 => (n + 2) * doubleFactorialOf n

/-- The exact value of a function on integers from a least one on. -/
def onIntegers (label : String) (least : Int) (function : Int → Nat) (x : Expr) :
    Except Fault (Option Expr) :=
  match integer? x with
  | none => noResult
  | some n =>
      if n < least then .error (.undefinedFor label n)
      else constant (function n)

def factorial : Expr → Except Fault (Option Expr) :=
  onIntegers "factorial" 0 fun n => factorialOf n.toNat

def doubleFactorial : Expr → Except Fault (Option Expr) :=
  onIntegers "double factorial" (-1) fun n => doubleFactorialOf n.toNat

def gamma : Expr → Except Fault (Option Expr) :=
  onIntegers "gamma" 1 fun n => factorialOf (n.toNat - 1)

/-- The multiple of `10 ^ -places` nearest to a number; of two the one with the
larger magnitude. -/
def roundTo (value : Rat) (places : Int) : Rat :=
  let factor := Ratio.power 10 places
  let magnitude : Rat := ((value.abs * factor + 1 / 2).floor : Rat) / factor
  if value < 0 then -magnitude else magnitude

def rounded (x : Expr) (digits : Option Expr) : Except Fault (Option Expr) :=
  match x.constant? with
  | none => noResult
  | some value =>
      match digits with
      | none => constant (roundTo value 0)
      | some places =>
          match integer? places, places.constant? with
          | some n, _ => constant (roundTo value n)
          | none, some fraction => .error (.fractionalPlaces fraction)
          | none, none => noResult

/-- The values of arguments that are all constants. -/
def constants? (args : List Expr) : Option (List Rat) := args.mapM Expr.constant?

/-- The one of several constants that comes before all others. -/
def extreme (before : Rat → Rat → Bool) (args : List Expr) : Option Expr :=
  match constants? args with
  | some (first :: rest) =>
      some (.number (rest.foldl (fun best value => if before value best then value else best)
        first))
  | _ => none

def remainder (a b : Expr) : Except Fault (Option Expr) :=
  match a.constant?, b.constant? with
  | some x, some y => return some (.number (← Strict.modulo x y))
  | _, _ => if b.isZero then .error .symbolicModuloByZero else noResult

/-! ## Forms of rules -/

/-- A rule with one argument. -/
def unary (exact : Mode → Expr → Except Fault (Option Expr))
    (approximate : Option (Float → Option Float)) : Rule where
  exact mode args :=
    match args with
    | [x] => exact mode x
    | _ => noResult
  approximate := approximate.map fun method args =>
    match args with
    | [x] => method x
    | _ => none

/-- A rule whose only exact value is that at one point. -/
def atPoint (point : Expr → Bool) (value : Rat) (approximate : Float → Option Float) : Rule :=
  unary (fun _ x => if point x then constant value else noResult) (some approximate)

/-- A rule with one argument that is only exact. -/
def exactly (exact : Mode → Expr → Except Fault (Option Expr)) : Rule := unary exact none

end Rule

/-! ## The built-in table -/

namespace FunctionTable

open Rule Approximation

/-- An entry for a rule with one argument. -/
def one (name : String) (rule : Rule) : String × FunctionEntry :=
  (name, ⟨.exactly 1, .builtIn rule⟩)

/-- A rule for a root of a given degree. -/
def rootRule (degree : Nat) : Rule :=
  exactly fun mode x => return some (← Arithmetic.pow mode x (.number (mkRat 1 degree)))

/-- The values of a function at integer multiples of `pi`. -/
def atPi (value : Int → Rat) (approximate : Float → Option Float) : Rule :=
  unary (fun _ x => match piInteger? x with
    | some k => constant (value k)
    | none => noResult) (some approximate)

/-- A function without exact values. -/
def inexact (approximate : Float → Option Float) : Rule :=
  unary (fun _ _ => noResult) (some approximate)

/-- The gamma function, shifted by one. -/
def shiftedGamma (x : Float) : Option Float := some (Approximation.gamma (x + 1))

/-- Elementary functions of one argument. -/
def elementary : List (String × FunctionEntry) := [
  one "sqrt" (rootRule 2),
  one "cbrt" (rootRule 3),
  one "abs" (unary (fun _ x => .ok (absolute x)) (some fun x => some x.abs)),
  one "exp" (unary (fun mode x =>
      if mode.numeric then noResult
      else return some (← Arithmetic.pow mode (.named "e") x))
    (some fun x => finite? x.exp)),
  ("log", ⟨⟨1, some 2⟩, .builtIn
    { exact := fun _ args =>
        match args with
        | [x] => logarithm x none
        | [x, base] => logarithm x (some base)
        | _ => noResult
      approximate := some fun args =>
        match args with
        | [x] => log? x e
        | [x, base] => log? x base
        | _ => none }⟩),
  one "log10" (unary (fun _ x => commonLogarithm x) (some log10?)),
  one "sin" (atPi (fun _ => 0) fun x => finite? x.sin),
  one "cos" (atPi (fun k => if k % 2 = 0 then 1 else -1) fun x => finite? x.cos),
  one "tan" (atPi (fun _ => 0) fun x => finite? x.tan),
  one "asin" (atPoint Expr.isZero 0 (between (-1) 1 Float.asin)),
  one "sec" (atPoint Expr.isZero 1 fun x => reciprocal? x.cos),
  one "csc" (inexact fun x => reciprocal? x.sin),
  one "cot" (inexact fun x => reciprocal? x.tan),
  one "atan" (atPoint Expr.isZero 0 fun x => finite? x.atan),
  one "sinh" (atPoint Expr.isZero 0 fun x => finite? x.sinh),
  one "cosh" (atPoint Expr.isZero 1 fun x => finite? x.cosh),
  one "tanh" (atPoint Expr.isZero 0 fun x => finite? x.tanh),
  one "asinh" (atPoint Expr.isZero 0 fun x => finite? x.asinh),
  one "atanh" (atPoint Expr.isZero 0 (between (-1) 1 Float.atanh)),
  one "acos" (atPoint Expr.isOne 0 (between (-1) 1 Float.acos)),
  one "acosh" (atPoint Expr.isOne 0 fun x => if 1 ≤ x then finite? x.acosh else none)]

/-- Functions on integers and their extensions. -/
def special : List (String × FunctionEntry) := [
  one "erf" (atPoint Expr.isZero 0 fun x => some (Approximation.erf x)),
  one "factorial" (unary (fun _ => Rule.factorial) (some shiftedGamma)),
  one "fact" (unary (fun _ => Rule.factorial) (some shiftedGamma)),
  one "dfactorial" (unary (fun _ => Rule.doubleFactorial) (some doubleFactorial?)),
  one "gamma" (unary (fun _ => Rule.gamma) (some fun x => some (Approximation.gamma x)))]

/-- Functions that only compare, round or divide constants, and powers. -/
def exactOnly : List (String × FunctionEntry) := [
  one "floor" (exactly fun _ x => .ok (x.constant?.map fun value => .number value.floor)),
  one "ceil" (exactly fun _ x => .ok (x.constant?.map fun value => .number (-(-value).floor))),
  ("round", ⟨⟨1, some 2⟩, .builtIn
    { exact := fun _ args =>
        match args with
        | [x] => rounded x none
        | [x, digits] => rounded x (some digits)
        | _ => noResult
      approximate := none }⟩),
  ("min", ⟨⟨1, none⟩, .builtIn
    { exact := fun _ args => .ok (extreme (fun a b => decide (a < b)) args)
      approximate := none }⟩),
  ("max", ⟨⟨1, none⟩, .builtIn
    { exact := fun _ args => .ok (extreme (fun a b => decide (b < a)) args)
      approximate := none }⟩),
  ("mod", ⟨.exactly 2, .builtIn
    { exact := fun _ args =>
        match args with
        | [a, b] => remainder a b
        | _ => noResult
      approximate := none }⟩),
  ("pow", ⟨.exactly 2, .builtIn
    { exact := fun mode args =>
        match args with
        | [a, b] => return some (← Arithmetic.pow mode a b)
        | _ => noResult
      approximate := none }⟩)]

/-- The built-in functions. -/
def standard : FunctionTable := ⟨elementary ++ special ++ exactOnly⟩

/-- True if a function has a given name and accepts a number of arguments. -/
def accepts (functions : FunctionTable) (name : String) (count : Nat) : Bool :=
  match functions.get? name with
  | some entry => entry.arity.accepts count
  | none => false

/-! ## User-defined functions -/

/-- Checks the names of a new function. -/
def checkNames (name : String) (parameters : List String) : Except Fault Unit := do
  for text in name :: parameters do
    if !Text.isIdentifier text then throw (.notName text)
  if parameters.eraseDups.length ≠ parameters.length then
    throw (.repeatedParameter parameters)

/-- Adds a function with a body. -/
def define (functions : FunctionTable) (name : String) (parameters : List String)
    (body : String) (overwrite : Bool) : Except Fault FunctionTable :=
  functions.register name ⟨.exactly parameters.length, .byBody parameters body⟩ overwrite

/-- Removes a function that has a body. -/
def undefine (functions : FunctionTable) (name : String) : Except Fault FunctionTable :=
  match functions.get? name with
  | some ⟨_, .byBody ..⟩ => (functions.remove name).map Prod.snd
  | _ => .error (.notUserDefined name)

end FunctionTable

end ExactAlgebra
