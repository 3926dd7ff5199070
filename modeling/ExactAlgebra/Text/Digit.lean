import ExactAlgebra.Text.Ranges

/-!
# Digits

Decimal digits are the characters of the Unicode category `Nd`; they come in
blocks of ten, from zero to nine, and each has its value.  Digit-like characters
also include superscripts, subscripts and circled digits, which have no place in
a numeral but may continue a name.
-/

namespace ExactAlgebra.Text

/-- The code points of the characters for zero. -/
def zeros : Array Nat := #[
  48, 1632, 1776, 1984, 2406, 2534, 2662, 2790, 2918, 3046, 3174, 3302, 3430, 3558, 3664, 3792,
  3872, 4160, 4240, 6112, 6160, 6470, 6608, 6784, 6800, 6992, 7088, 7232, 7248, 42528, 43216,
  43264, 43472, 43504, 43600, 44016, 65296, 66720, 68912, 69734, 69872, 69942, 70096, 70384,
  70736, 70864, 71248, 71360, 71472, 71904, 72016, 72784, 73040, 73120, 92768, 92864, 93008,
  120782, 120792, 120802, 120812, 120822, 123200, 123632, 125264, 130032]

/-- The value of a decimal digit. -/
def digitValue? (c : Char) : Option Nat :=
  if c.toNat < 128 then
    if '0' ≤ c ∧ c ≤ '9' then some (c.toNat - 48) else none
  else
    (zeros.find? fun first => first ≤ c.toNat && c.toNat < first + 10).map
      fun first => c.toNat - first

def isDecimalDigit (c : Char) : Bool := (digitValue? c).isSome

/-- Digit characters outside of the decimal systems. -/
def specialDigits : CharRanges := #[
  (178, 179), (185, 185), (4969, 4977), (6618, 6618), (8304, 8304), (8308, 8313), (8320, 8329),
  (9312, 9320), (9332, 9340), (9352, 9360), (9450, 9450), (9461, 9469), (9471, 9471),
  (10102, 10110), (10112, 10120), (10122, 10130), (68160, 68163), (69216, 69224), (69714, 69722),
  (127232, 127242)]

/-- True for decimal digits and for superscript, subscript and circled ones. -/
def isDigitLike (c : Char) : Bool := isDecimalDigit c || specialDigits.holds c

/-- The number that decimal digits denote, most significant digit first. -/
def digitsValue (digits : List Char) : Nat :=
  digits.foldl (fun value c => 10 * value + (digitValue? c).getD 0) 0

end ExactAlgebra.Text
