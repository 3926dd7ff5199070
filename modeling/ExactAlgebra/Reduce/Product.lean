import ExactAlgebra.Reduce.Radical

/-!
# Products and powers of expressions

A factor joins a product in the slot of its multiplicative key, where factors of
one base add their exponents.  Radicals of a product are recombined as a whole,
and a sum with exponent one always distributes.  Powers distribute over products;
integral powers of sums expand, and other powers of sums stay as they are.

The operations call each other on operands that need not be smaller, so each
takes the depth of nested calls that it may use.
-/

namespace ExactAlgebra.Reduce

/-! ## Exponents -/

/-- An exponent as an expression. -/
def asNode : Exponent → Expr
  | .rational value => .number value
  | .symbolic value => value

/-- An expression as an exponent. -/
def asExponent : Expr → Exponent
  | .number value => .rational value
  | node => .symbolic node

/-- The sum of two exponents. -/
def addExponents (p q : Exponent) : Except Fault Exponent :=
  match p, q with
  | .rational p, .rational q => .ok (.rational (p + q))
  | _, _ => return asExponent (← plus (asNode p) (asNode q))

/-- An integral power of the imaginary unit. -/
def imaginaryPower (mode : Mode) (n : Int) : Expr :=
  match n % 4 with
  | 0 => .number 1
  | 1 => .symbol 1 mode.imaginary 1
  | 2 => .number (-1)
  | _ => .symbol (-1) mode.imaginary 1

/-- The constant term of a sum, or zero. -/
def constantTerm : Expr → Rat
  | .composite _ power terms =>
      if power = 1 then ((Slots.find? Expr.constantMark terms).map Expr.coeff).getD 0 else 0
  | _ => 0

/-- A base other than one that is no perfect power, and the exponent that goes
with it. -/
def reduceBase (base : Rat) (exponent : Expr) : Rat × Expr :=
  if Ratio.isInteger base && decide (1 < base) then
    let (root, degree) := Root.perfectPower base.num.toNat
    if 1 < degree then ((root : Rat), scale degree exponent) else (base, exponent)
  else (base, exponent)

/-- The float value of a positive rational to a rational power. -/
def floatPower (base power : Rat) : Except Fault Expr :=
  match Double.ofRat? base, Double.ofRat? power with
  | some x, some y =>
      if x == 0 && y < 0 then .error .zeroToNegativeFloat
      else
        let value := Float.pow x y
        if value.isFinite then return .number (← rationalOf value)
        else .error (.outOfRange base power)
  | _, _ => .error (.outOfRange base power)

/-! ## Pairs and lists of factors -/

/-- The product of two factors with different bases. -/
def pairFactors (a b : Expr) : Expr :=
  .product 1 1 (Slots.ofList [(a.multiplicativeKey, a), (b.multiplicativeKey, b)])

/-- Splits the slots of a product into radicals and other factors. -/
def splitRadicals (factors : Slots) : List (Rat × Rat) × Slots :=
  (factors.filterMap fun slot => match slot.2 with
      | .radical _ base power => some (base, power)
      | _ => none,
    factors.filter fun slot => slot.2.group != .radical)

/-- Puts new factors into free slots; those whose slot is taken are returned. -/
def placeFactors (slots : Slots) (factors : List Expr) : Slots × List Expr :=
  factors.foldl (fun (slots, rest) factor =>
    let key := factor.multiplicativeKey
    match Slots.find? key slots with
    | some _ => (slots, rest ++ [factor])
    | none => (slots ++ [(key, factor)], rest)) (slots, [])

/-- The product of a coefficient and of radicals with distinct bases. -/
def productOf (coefficient : Rat) (factors : List Expr) : Expr :=
  match factors with
  | [] => .number coefficient
  | [factor] => factor.withCoeff coefficient
  | factors =>
      .product coefficient 1
        (Slots.ofList (factors.map fun factor => (factor.multiplicativeKey, factor)))

/-! ## Multiplication and powers -/

mutual

/-- The product of two expressions. -/
def combineFactors (mode : Mode) (fuel : Nat) (a b : Expr) : Except Fault Expr :=
  match fuel with
  | 0 => .error .exhausted
  | fuel + 1 =>
      if a.isZero || b.isZero then .ok (.number 0)
      else match a, b with
        | .number x, .number y => .ok (.number (x * y))
        | _, _ =>
            let (a, b) := if a.group.rank < b.group.rank then (b, a) else (a, b)
            match b with
            | .number factor => .ok (scale factor a)
            | _ => do
                let content ← multiplyContent mode fuel (a.withCoeff 1) (b.withCoeff 1)
                return scale (a.coeff * b.coeff) content

/-- The product of two expressions that are no constants and have coefficient
one; the first is structurally no smaller. -/
def multiplyContent (mode : Mode) (fuel : Nat) (a b : Expr) : Except Fault Expr :=
  match fuel with
  | 0 => .error .exhausted
  | fuel + 1 =>
      match a, b with
      | .product .., .product _ _ factors =>
          (Slots.children factors).foldlM (fun total factor => combineFactors mode fuel total factor) a
      | .product .., _ => insertFactor mode fuel a b
      | _, .product .. => insertFactor mode fuel b a
      | _, _ =>
          if a.isExpandedSum || b.isExpandedSum then distribute mode fuel a b
          else if a.multiplicativeKey = b.multiplicativeKey then combinePowers mode fuel a b
          else match a, b with
            | .radical _ base power, .radical _ base' power' => do
                let form ← combineRadicals mode [(base, power), (base', power')]
                buildProduct mode fuel form.coefficient form.factors form.extras
            | _, _ => .ok (pairFactors a b)

/-- A product and one more factor, which has coefficient one and is neither a
constant nor a product. -/
def insertFactor (mode : Mode) (fuel : Nat) (total factor : Expr) : Except Fault Expr :=
  match fuel with
  | 0 => .error .exhausted
  | fuel + 1 =>
      if factor.isExpandedSum then distribute mode fuel total factor
      else
        let key := factor.multiplicativeKey
        let existing := Slots.find? key total.slots
        let free := match existing with
          | some old => old.group == .radical
          | none => true
        if factor.group == .radical && free then insertRadical mode fuel total factor
        else match existing with
          | none => .ok (total.withSlots (total.slots ++ [(key, factor)]))
          | some old => do
              let merged ← combinePowers mode fuel old factor
              combineFactors mode fuel
                (collapse (total.withSlots (Slots.erase key total.slots))) merged

/-- A product and one more radical. -/
def insertRadical (mode : Mode) (fuel : Nat) (total factor : Expr) : Except Fault Expr :=
  match fuel with
  | 0 => .error .exhausted
  | fuel + 1 => do
      let (radicals, others) := splitRadicals total.slots
      let (added, _) := splitRadicals [(factor.multiplicativeKey, factor)]
      let form ← combineRadicals mode (radicals ++ added)
      let (slots, taken) := placeFactors others form.factors
      let start := collapse
        ((total.withCoeff (total.coeff * form.coefficient)).withSlots slots)
      (form.extras ++ taken).foldlM
        (fun result extra => combineFactors mode fuel result extra) start

/-- The product of two expressions, one of which is a sum with exponent one: the
sum of the products with its terms. -/
def distribute (mode : Mode) (fuel : Nat) (a b : Expr) : Except Fault Expr :=
  match fuel with
  | 0 => .error .exhausted
  | fuel + 1 =>
      let (sum, other) := if a.isExpandedSum then (a, b) else (b, a)
      match sum with
      | .polynomial _ _ terms | .product _ _ terms | .composite _ _ terms =>
          (Slots.children terms).foldlM (fun total term => do
            plus total (← combineFactors mode fuel term other)) (.number 0)
      | _ => .error .noTerms

/-- The product of two factors with a common base. -/
def combinePowers (mode : Mode) (fuel : Nat) (a b : Expr) : Except Fault Expr :=
  match fuel with
  | 0 => .error .exhausted
  | fuel + 1 => do
      let power ← addExponents a.exponent b.exponent
      let raised ← raiseBase mode fuel a.baseOf power
      return scale (a.coeff * b.coeff) raised

/-- The product of two exponents. -/
def multiplyPowers (mode : Mode) (fuel : Nat) (p q : Exponent) : Except Fault Exponent :=
  match fuel with
  | 0 => .error .exhausted
  | fuel + 1 =>
      match p, q with
      | .rational p, .rational q => .ok (.rational (p * q))
      | _, _ => return asExponent (← combineFactors mode fuel (asNode p) (asNode q))

/-- An expression raised to the power of another. -/
def raiseTo (mode : Mode) (fuel : Nat) (a b : Expr) : Except Fault Expr :=
  match fuel with
  | 0 => .error .exhausted
  | fuel + 1 =>
      match b, a with
      | .number p, .number value => numberPower mode fuel value p
      | .number p, _ =>
          if p = 0 then .ok (.number 1)
          else do
            let power ← multiplyPowers mode fuel a.exponent (.rational p)
            let result ← raiseBase mode fuel a.baseOf power
            if a.coeff = 1 then return result
            else combineFactors mode fuel (← numberPower mode fuel a.coeff p) result
      | _, .number _ => exponential mode fuel a b
      | _, _ => do
          let power ← multiplyPowers mode fuel a.exponent (.symbolic b)
          let result ← raiseBase mode fuel a.baseOf power
          if a.coeff = 1 then return result
          else combineFactors mode fuel (← exponential mode fuel (.number a.coeff) b) result

/-- A base, as `Expr.baseOf` gives it, with a new exponent. -/
def raiseBase (mode : Mode) (fuel : Nat) (base : Expr) (power : Exponent) :
    Except Fault Expr :=
  match fuel with
  | 0 => .error .exhausted
  | fuel + 1 =>
      match asExponent (asNode power) with
      | .symbolic exponent => exponential mode fuel base exponent
      | .rational p =>
          match base with
          | .number value => numberPower mode fuel value p
          | _ =>
              if p = 0 then .ok (.number 1)
              else if p = 1 then .ok base
              else match base with
                | .symbol _ name _ =>
                    if name == mode.imaginary && Ratio.isInteger p then
                      .ok (imaginaryPower mode p.num)
                    else .ok (base.withPower p)
                | .call .. => .ok (base.withPower p)
                | .product coeff _ factors =>
                    raiseFactors mode fuel coeff (Slots.children factors) (.rational p)
                | _ =>
                    if 1 < p then do
                      let n := p.floor.toNat
                      let whole ← if 1 < n then expandPower mode fuel base n else .ok base
                      if (n : Rat) = p then return whole
                      else distribute mode fuel whole (base.withPower (p - n))
                    else .ok (base.withPower p)

/-- A coefficient times the powers of some factors. -/
def raiseFactors (mode : Mode) (fuel : Nat) (coeff : Rat) (factors : List Expr)
    (power : Exponent) : Except Fault Expr :=
  match fuel with
  | 0 => .error .exhausted
  | fuel + 1 =>
      factors.foldlM (fun result factor => do
        let product ← multiplyPowers mode fuel factor.exponent power
        let raised ← raiseBase mode fuel factor.baseOf product
        combineFactors mode fuel result raised) (.number coeff)

/-- A positive integral power of a sum, expanded. -/
def expandPower (mode : Mode) (fuel : Nat) (base : Expr) (n : Nat) : Except Fault Expr :=
  match fuel with
  | 0 => .error .exhausted
  | fuel + 1 =>
      (List.range (n - 1)).foldlM (fun result _ => distribute mode fuel result base) base

/-- A rational raised to a rational power. -/
def numberPower (mode : Mode) (fuel : Nat) (b p : Rat) : Except Fault Expr :=
  match fuel with
  | 0 => .error .exhausted
  | fuel + 1 =>
      if b = 0 then
        if 0 < p then .ok (.number 0)
        else if p = 0 then .error .zeroToZero
        else .error (.zeroToNegative p)
      else if p = 0 ∨ b = 1 then .ok (.number 1)
      else if Ratio.isInteger p then .ok (.number (Ratio.power b p.num))
      else if b < 0 then do
        let magnitude ← numberPower mode fuel (-b) p
        let (sign, extra) ← negativeOnePower mode p
        let result := scale sign magnitude
        match extra with
        | none => return result
        | some factor => combineFactors mode fuel result factor
      else if mode.numeric then floatPower b p
      else if b.den ≠ 1 then do
        let above ← numberPower mode fuel b.num p
        let below ← numberPower mode fuel b.den (-p)
        combineFactors mode fuel above below
      else do
        let form ← combineRadicals mode [(b, p)]
        buildProduct mode fuel form.coefficient form.factors form.extras

/-- A base raised to an exponent that is no constant. -/
def exponential (mode : Mode) (fuel : Nat) (base exponent : Expr) : Except Fault Expr :=
  match fuel with
  | 0 => .error .exhausted
  | fuel + 1 =>
      match base with
      | .number value =>
          if value = 0 ∨ value = 1 then .ok base
          else
            let (b, exponent) := reduceBase value exponent
            let constant := constantTerm exponent
            if constant = 0 then .ok (.exponential 1 (.number b) exponent)
            else do
              let rest ← plus exponent (.number (-constant))
              let result ← raiseBase mode fuel (.number b) (asExponent rest)
              combineFactors mode fuel (← numberPower mode fuel b constant) result
      | .product coeff _ factors =>
          raiseFactors mode fuel coeff (Slots.children factors) (.symbolic exponent)
      | _ => .ok (.exponential 1 base exponent)

/-- The product of a coefficient, radicals with distinct bases, and other
factors. -/
def buildProduct (mode : Mode) (fuel : Nat) (coefficient : Rat)
    (factors extras : List Expr) : Except Fault Expr :=
  match fuel with
  | 0 => .error .exhausted
  | fuel + 1 =>
      extras.foldlM (fun result extra => combineFactors mode fuel result extra)
        (productOf coefficient factors)

end

end ExactAlgebra.Reduce
