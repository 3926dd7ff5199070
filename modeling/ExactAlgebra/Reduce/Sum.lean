import ExactAlgebra.Expr.Basic

/-!
# Sums of expressions

A term joins a sum in the slot of its additive key.  Terms that meet in one slot
are added; terms of one base but of different exponents form a polynomial; all
others stand side by side in a composite.  A slot whose terms cancel disappears,
and a sum of one term is that term.
-/

namespace ExactAlgebra.Reduce

/-! ## Rational multiples -/

mutual

/-- A rational multiple.  Sums with exponent one pass the factor on to their
terms. -/
def scale (factor : Rat) (node : Expr) : Expr :=
  if factor = 0 then .number 0
  else if factor = 1 then node
  else match node with
    | .polynomial coeff power terms =>
        if power = 1 then .polynomial coeff power (scaleSlots factor terms)
        else .polynomial (coeff * factor) power terms
    | .composite coeff power terms =>
        if power = 1 then .composite coeff power (scaleSlots factor terms)
        else .composite (coeff * factor) power terms
    | .number value => .number (value * factor)
    | .radical coeff base power => .radical (coeff * factor) base power
    | .symbol coeff name power => .symbol (coeff * factor) name power
    | .exponential coeff base exponent => .exponential (coeff * factor) base exponent
    | .call coeff name args power => .call (coeff * factor) name args power
    | .product coeff power factors => .product (coeff * factor) power factors

/-- `scale` on the terms of a sum. -/
def scaleSlots (factor : Rat) : List (Key × Expr) → List (Key × Expr)
  | [] => []
  | (key, child) :: rest => (key, scale factor child) :: scaleSlots factor rest

end

/-! ## Degenerate sums and products -/

/-- A sum or product with fewer than two children as a simpler expression. -/
def collapse (node : Expr) : Expr :=
  match node with
  | .product coeff _ [] => .number coeff
  | .product coeff _ [(_, child)] => scale coeff child
  | .polynomial _ _ [] | .composite _ _ [] => .number 0
  | .polynomial _ _ [(_, child)] | .composite _ _ [(_, child)] => child
  | _ => node

/-- The sum of two terms that are not like terms. -/
def pairTerms (a b : Expr) : Expr :=
  if a.additiveKey = b.additiveKey then
    .polynomial 1 1 (Slots.ofList [(a.exponent.key, a), (b.exponent.key, b)])
  else .composite 1 1 (Slots.ofList [(a.additiveKey, a), (b.additiveKey, b)])

/-! ## Addition -/

/-- The two operands, the structurally larger first, but a sum with exponent one
before anything else. -/
def orderTerms (a b : Expr) : Expr × Expr :=
  let (a, b) := if a.group.rank < b.group.rank then (b, a) else (a, b)
  if b.isExpandedSum && !a.isExpandedSum then (b, a) else (a, b)

mutual

/-- The sum of two expressions, within a depth of `fuel` nested calls. -/
def combineTerms (fuel : Nat) (a b : Expr) : Except Fault Expr :=
  match fuel with
  | 0 => .error .exhausted
  | fuel + 1 =>
      if a.isZero then .ok b
      else if b.isZero then .ok a
      else match a, b with
        | .number x, .number y => .ok (.number (x + y))
        | _, _ =>
            let (a, b) := orderTerms a b
            if a.isExpandedSum then
              if b.isExpandedSum then
                b.slots.children.foldlM (fun total term => combineTerms fuel total term) a
              else insertTerm fuel a b
            else if a.content = b.content then
              let coeff := a.coeff + b.coeff
              .ok (if coeff = 0 then .number 0 else a.withCoeff coeff)
            else .ok (pairTerms a b)

/-- A sum with exponent one and one more term, which is no such sum. -/
def insertTerm (fuel : Nat) (total term : Expr) : Except Fault Expr :=
  match fuel with
  | 0 => .error .exhausted
  | fuel + 1 =>
      match total with
      | .polynomial coeff power terms =>
          if term.additiveKey ≠ total.additiveKey then .ok (pairTerms total term)
          else
            let key := term.exponent.key
            match Slots.find? key terms with
            | none => .ok (.polynomial coeff power (terms ++ [(key, term)]))
            | some old => do
                let merged ← combineTerms fuel old term
                let rest := Slots.erase key terms
                .ok (collapse (.polynomial coeff power
                  (if merged.isZero then rest else rest ++ [(key, merged)])))
      | _ =>
          let key := term.additiveKey
          match Slots.find? key total.slots with
          | none => .ok (total.withSlots (total.slots ++ [(key, term)]))
          | some old => do
              let merged ← combineTerms fuel old term
              let rest := Slots.erase key total.slots
              if merged.isZero then .ok (collapse (total.withSlots rest))
              else if merged.group = .composite ∨ merged.additiveKey ≠ key then
                combineTerms fuel (collapse (total.withSlots rest)) merged
              else .ok (total.withSlots (rest ++ [(key, merged)]))

end

/-- A depth of nested calls that is enough for operands of these sizes. -/
def budget (a b : Expr) : Nat := Nat.pow 2 (a.weight + b.weight + 8)

/-- The sum of two expressions. -/
def plus (a b : Expr) : Except Fault Expr := combineTerms (budget a b) a b

end ExactAlgebra.Reduce
