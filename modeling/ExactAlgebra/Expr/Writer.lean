import ExactAlgebra.Expr.Terms
import ExactAlgebra.Number.Double
import ExactAlgebra.Text.Digit

/-!
# Written forms of expressions

Terms are written by descending degree and then by their text, constants last;
factors by their text, radicals first.  A style says how constants, coefficients,
powers and calls look.  There are two styles, infix text that can be read again
and LaTeX, each with exact fractions or with decimals.
-/

namespace ExactAlgebra

/-- How the parts of an expression are written. -/
structure Style (m : Type → Type) where
  constant : Rat → m String
  /-- A text with a coefficient. -/
  scaled : Rat → String → m String
  /-- A text raised to a rational power; the flag says that it needs no brackets. -/
  raised : String → Rat → Bool → m String
  /-- A base and an exponent, each with a flag that it needs no brackets. -/
  exponential : String → Bool → String → Bool → String
  name : String → String
  call : String → List String → String
  product : List String → String

namespace Style

/-! ## Traversal -/

/-- A written term: whether it is a constant, its degree, and its text. -/
structure Term where
  isNumber : Bool
  degree : Rat
  text : String
  deriving DecidableEq, Repr

/-- The order of terms in a sum. -/
def Term.le (a b : Term) : Bool :=
  if a.isNumber != b.isNumber then b.isNumber
  else if a.degree = b.degree then decide (a.text ≤ b.text)
  else decide (b.degree < a.degree)

/-- One more term of a written sum. -/
def joinTerm (sum text : String) : String :=
  if sum.isEmpty || text.front? == some '-' then sum ++ text else sum ++ "+" ++ text

/-- The terms of a sum in order, with signs between them. -/
def join (terms : List Term) : String :=
  ((terms.mergeSort Term.le).map Term.text).foldl joinTerm ""

/-- The order of factors in a product: radicals first, then by text. -/
def factorLe (a b : Bool × String) : Bool :=
  if a.1 != b.1 then b.1 else decide (a.2 ≤ b.2)

/-- True for an exponent that is a plain variable or call. -/
def isBare : Expr → Bool
  | .symbol coeff _ power | .call coeff _ _ power => coeff == 1 && power == 1
  | _ => false

variable {m : Type → Type} [Monad m]

mutual

/-- The written terms of an expression. -/
def terms (style : Style m) (node : Expr) : m (List Term) :=
  match node with
  | .number value => return [⟨true, 0, ← style.constant value⟩]
  | .radical coeff base power => do
      let body ← style.raised (← style.constant base) power (decide (0 < base))
      return [⟨false, power, ← style.scaled coeff body⟩]
  | .symbol coeff name power => do
      let body ← style.raised (style.name name) power true
      return [⟨false, power, ← style.scaled coeff body⟩]
  | .exponential coeff base exponent => do
      let baseText := join (← terms style base)
      let simple := match base with
        | .number value => decide (0 < value) && Ratio.isInteger value
        | _ => !base.isSum
      let exponentText := join (← terms style exponent)
      let body := style.exponential baseText simple exponentText (isBare exponent)
      return [⟨false, 0, ← style.scaled coeff body⟩]
  | .call coeff name args power => do
      let body ← style.raised (style.call name (← argsTexts style args)) power true
      return [⟨false, power, ← style.scaled coeff body⟩]
  | .polynomial coeff power children =>
      if power = 1 then slotsTerms style children
      else do
        let body ← style.raised (join (← slotsTerms style children)) power false
        return [⟨false, power, ← style.scaled coeff body⟩]
  | .composite coeff power children =>
      if power = 1 then slotsTerms style children
      else do
        let body ← style.raised (join (← slotsTerms style children)) power false
        return [⟨false, power, ← style.scaled coeff body⟩]
  | .product coeff power factors => do
      let texts := ((← factorTexts style factors).mergeSort factorLe).map Prod.snd
      let degree := (Expr.product coeff power factors).degree
      return [⟨false, degree, ← style.scaled coeff (style.product texts)⟩]

/-- The written arguments of a call. -/
def argsTexts (style : Style m) (args : List Expr) : m (List String) :=
  match args with
  | [] => return []
  | arg :: args => return join (← terms style arg) :: (← argsTexts style args)

/-- The written terms of the children of a sum. -/
def slotsTerms (style : Style m) (children : List (Key × Expr)) : m (List Term) :=
  match children with
  | [] => return []
  | (_, child) :: rest => return (← terms style child) ++ (← slotsTerms style rest)

/-- The written factors of a product, marked if they are no radicals. -/
def factorTexts (style : Style m) (factors : List (Key × Expr)) :
    m (List (Bool × String)) :=
  match factors with
  | [] => return []
  | (_, factor) :: rest =>
      return (factor.group != .radical, join (← terms style factor)) ::
        (← factorTexts style rest)

end

/-- The written form of an expression. -/
def write (style : Style m) (node : Expr) : m String :=
  return join (← terms style node)

/-! ## Infix text -/

def bracketed (text : String) : String := "(" ++ text ++ ")"

/-- Infix text; `decimals` says that coefficients are not split into fractions. -/
def infixText (decimals : Bool) (constant : Rat → m String) : Style m where
  constant := constant
  scaled coeff body :=
    if coeff = 1 then return body
    else if coeff = -1 then return "-" ++ body
    else if decimals || coeff.den == 1 then return (← constant coeff) ++ "*" ++ body
    else
      let divisor := "/" ++ toString coeff.den
      if coeff.num = 1 then return body ++ divisor
      else if coeff.num = -1 then return "-" ++ body ++ divisor
      else return toString coeff.num ++ "*" ++ body ++ divisor
  raised base power simple :=
    if power = 1 then return if simple then base else bracketed base
    else if power = 1 / 2 then return "sqrt" ++ bracketed base
    else
      let base := if simple then base else bracketed base
      let exponent := Ratio.text power
      if power.den = 1 ∧ 0 < power then return base ++ "^" ++ exponent
      else return base ++ "^" ++ bracketed exponent
  exponential base simple exponent bare :=
    (if simple then base else bracketed base) ++ "^" ++
      if bare then exponent else bracketed exponent
  name name := name
  call name args := name ++ bracketed (", ".intercalate args)
  product factors := "*".intercalate factors

/-! ## LaTeX -/

/-- Names that LaTeX writes as Greek letters. -/
def greekLetters : List String :=
  ["alpha", "beta", "gamma", "delta", "epsilon", "zeta", "eta", "theta", "iota", "kappa",
   "lambda", "mu", "nu", "xi", "pi", "rho", "sigma", "tau", "upsilon", "phi", "chi", "psi",
   "omega"]

/-- Functions that LaTeX has commands for. -/
def operatorNames : List String :=
  ["sin", "cos", "tan", "sec", "csc", "cot", "sinh", "cosh", "tanh", "log", "exp", "min",
   "max"]

def braced (text : String) : String := "\x7b" ++ text ++ "\x7d"

/-- Brackets that grow with their content. -/
def tall (text : String) : String := "\\left(" ++ text ++ "\\right)"

/-- A fraction with its sign in front. -/
def frac (negative : Bool) (numerator : String) (denominator : Nat) : String :=
  (if negative then "-" else "") ++ "\\frac" ++ braced numerator ++
    braced (toString denominator)

/-- LaTeX; `decimals` says that no constant is written as a fraction. -/
def latex (decimals : Bool) (decimal : Rat → m String) : Style m :=
  let constant (value : Rat) : m String :=
    if decimals || value.den == 1 then decimal value
    else return frac (decide (value < 0)) (toString value.num.natAbs) value.den
  { constant := constant
    scaled := fun coeff body =>
      if coeff = 1 then return body
      else if coeff = -1 then return "-" ++ body
      else if decimals || coeff.den == 1 then do
        let separator :=
          if body.front?.any Text.isDigitLike then " \\cdot " else ""
        return (← constant coeff) ++ separator ++ body
      else
        let p := coeff.num.natAbs
        let numerator := if p = 1 then body else toString p ++ " \\cdot " ++ body
        return frac (decide (coeff < 0)) numerator coeff.den
    raised := fun base power simple =>
      if power = 1 / 2 then return "\\sqrt" ++ braced base
      else
        let base := if simple then base else tall base
        if power = 1 then return base
        else if power.den = 1 then return base ++ "^" ++ braced (Ratio.text power)
        else return base ++ "^" ++ braced (← constant power)
    exponential := fun base simple exponent _ =>
      (if simple then base else tall base) ++ "^" ++ braced exponent
    name := fun name =>
      if greekLetters.contains name then "\\" ++ name
      else if 1 < name.length then "\\mathrm" ++ braced name
      else name
    call := fun name args =>
      let joined := ", ".intercalate args
      if name = "abs" then "\\left|" ++ joined ++ "\\right|"
      else if name = "sqrt" then "\\sqrt" ++ braced joined
      else
        let command :=
          if operatorNames.contains name then "\\" ++ name
          else "\\operatorname" ++ braced name
        command ++ tall joined
    product := fun factors => " \\cdot ".intercalate factors }

end Style

/-! ## Exact and decimal forms -/

namespace Ratio

/-- An integer, or the decimal of the nearest float. -/
def decimalText (a : Rat) : Except Fault String :=
  if a.den = 1 then .ok (text a)
  else match Double.ofRat? a with
    | some x => .ok (Double.text x)
    | none => .error .floatOverflow

end Ratio

namespace Expr

/-- Infix text that reads back as the expression. -/
def toText (node : Expr) : String :=
  Id.run ((Style.infixText false fun a => pure (Ratio.text a)).write node)

def toLatex (node : Expr) : String :=
  Id.run ((Style.latex false fun a => pure (Ratio.text a)).write node)

/-- Infix text with decimal coefficients. -/
def toDecimalText (node : Expr) : Except Fault String :=
  (Style.infixText true Ratio.decimalText).write node

def toDecimalLatex (node : Expr) : Except Fault String :=
  (Style.latex true Ratio.decimalText).write node

end Expr

end ExactAlgebra
