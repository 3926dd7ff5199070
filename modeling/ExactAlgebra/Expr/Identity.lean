import ExactAlgebra.Expr.Basic
import ExactAlgebra.Text.Digest

/-!
# Names of expressions

Every expression has a short name.  That of a variable or call is its own name,
that of a radical its base; products and composite sums are named by a digest of
their content, which does not depend on the order of their children.
-/

namespace ExactAlgebra.Expr

/-- The digest of the content without coefficient and exponent. -/
def contentDigest (node : Expr) : String :=
  Text.Digest.ofText (node.withPower 1).content.text

mutual

/-- The short name of an expression. -/
def identity : Expr → String
  | number _ => "#"
  | radical _ base _ => Ratio.text base
  | symbol _ name _ => name
  | exponential _ base _ =>
      match base with
      | number value => Ratio.text value
      | _ => base.identity
  | call _ name _ _ => name
  | polynomial _ _ terms => firstIdentity terms
  | product coeff power factors => contentDigest (product coeff power factors)
  | composite coeff power terms => contentDigest (composite coeff power terms)

/-- The name of the first child. -/
def firstIdentity : List (Key × Expr) → String
  | [] => ""
  | (_, child) :: _ => child.identity

end

end ExactAlgebra.Expr
