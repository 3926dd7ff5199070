/-!
# Sets of characters given by ranges of code points

A set is a list of inclusive ranges.  The tables of this library are written in
ascending order, and membership looks for a range that holds the code point.
-/

namespace ExactAlgebra

/-- A set of characters as inclusive ranges of code points. -/
abbrev CharRanges := Array (Nat × Nat)

namespace CharRanges

/-- True if some range holds the code point of `c`. -/
def holds (ranges : CharRanges) (c : Char) : Bool :=
  ranges.any fun range => range.1 ≤ c.toNat && c.toNat ≤ range.2

end CharRanges

end ExactAlgebra
