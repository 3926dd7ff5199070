import ExactAlgebra.Number.Ratio

/-!
# Binary floating-point numbers

A finite number of a binary format is a significand times a power of two.  Exact
rationals round to the nearest number of a format, a half to the even
significand; there is no result when they round beyond the largest one.
-/

namespace ExactAlgebra

/-- A binary format: the digits of a significand, the exponent of the last place
of the smallest numbers, and the first power of two beyond the format. -/
structure BinaryFormat where
  precision : Nat
  lastPlace : Int
  overflow : Int
  deriving DecidableEq, Repr

namespace BinaryFormat

/-- Numbers of 64 bits. -/
def double : BinaryFormat := ⟨53, -1074, 1024⟩

/-- Numbers of 32 bits. -/
def single : BinaryFormat := ⟨24, -149, 128⟩

/-- A quotient rounded to the nearest integer, a half to the even one. -/
def roundQuotient (numerator denominator : Nat) : Nat :=
  let quotient := numerator / denominator
  let rest := 2 * (numerator % denominator)
  if rest < denominator then quotient
  else if denominator < rest then quotient + 1
  else quotient + quotient % 2

/-- The fraction divided by a power of two, as a numerator and a denominator. -/
def descale (numerator denominator : Nat) (exponent : Int) : Nat × Nat :=
  if 0 ≤ exponent then (numerator, denominator * Nat.pow 2 exponent.toNat)
  else (numerator * Nat.pow 2 (-exponent).toNat, denominator)

/-- The exponent of the last place of a positive fraction in the format. -/
def placeOf (format : BinaryFormat) (numerator denominator : Nat) : Int :=
  let guess : Int := (Root.bitLength numerator : Int) - Root.bitLength denominator -
    format.precision
  let (high, low) := descale numerator denominator guess
  max format.lastPlace (if high / low < Nat.pow 2 format.precision then guess else guess + 1)

/-- The significand and exponent nearest to a positive fraction, if the format
reaches that far. -/
def nearest? (format : BinaryFormat) (numerator denominator : Nat) :
    Option (Nat × Int) :=
  let place := format.placeOf numerator denominator
  let (high, low) := descale numerator denominator place
  let significand := roundQuotient high low
  if significand = Nat.pow 2 format.precision ∧
      format.overflow ≤ place + format.precision then none
  else if format.overflow < place + format.precision then none
  else some (significand, place)

end BinaryFormat

namespace Double

/-! ## Bits -/

/-- The leading bit of a significand, which is not written. -/
def leadingBit : Nat := 0x10000000000000

/-- The bit of the sign. -/
def signBit : Nat := 0x8000000000000000

/-- Sign, significand and exponent of a finite double. -/
def decode? (x : Float) : Option (Bool × Nat × Int) :=
  let bits : Nat := x.toBits.toNat
  let negative := bits / signBit == 1
  let field : Nat := bits / leadingBit % 2048
  let fraction : Nat := bits % leadingBit
  if field = 2047 then none
  else if field = 0 then some (negative, fraction, -1074)
  else some (negative, fraction + leadingBit, (field : Int) - 1075)

/-- The double with the given sign, significand and exponent, where a significand
below `leadingBit` comes with the exponent `-1074`. -/
def encode (negative : Bool) (significand : Nat) (exponent : Int) : Float :=
  let magnitude :=
    if significand < leadingBit then significand
    else (exponent + 1075).toNat * leadingBit + (significand - leadingBit)
  Float.ofBits (UInt64.ofNat (magnitude + if negative then signBit else 0))

/-- The exact value of a significand times a power of two. -/
def scaled (significand : Nat) (exponent : Int) : Rat := Ratio.scaled 2 significand exponent

/-- The exact value of a finite double. -/
def toRat? (x : Float) : Option Rat := do
  let (negative, significand, exponent) ← decode? x
  some (if negative then -(scaled significand exponent) else scaled significand exponent)

/-- The double nearest to a rational, unless it is too large. -/
def ofRat? (a : Rat) : Option Float :=
  if a = 0 then some 0
  else do
    let (significand, exponent) ← BinaryFormat.double.nearest? a.num.natAbs a.den
    some (encode (decide (a < 0)) significand exponent)

/-- A finite double rounded to a single, or an infinity if it is too large. -/
def toSingle (x : Float) : Float :=
  match decode? x with
  | none => x
  | some (_, 0, _) => x
  | some (negative, significand, exponent) =>
      let value := scaled significand exponent
      match BinaryFormat.single.nearest? value.num.natAbs value.den with
      | some (place, shift) =>
          let rounded := scaled place shift
          (ofRat? (if negative then -rounded else rounded)).getD x
      | none => if negative then -1.0 / 0.0 else 1.0 / 0.0

/-! ## Shortest decimals -/

/-- A decimal number: an integer times a power of ten. -/
structure Decimal where
  digits : Nat
  exponent : Int
  deriving DecidableEq, Repr

/-- The rationals that round to a number of the format, times a power of two: the
value, the two bounds, the exponent of the power, and whether the bounds belong to
them. -/
def interval (format : BinaryFormat) (significand : Nat) (exponent : Int) :
    Nat × Nat × Nat × Int × Bool :=
  let low :=
    if significand = Nat.pow 2 (format.precision - 1) ∧ format.lastPlace < exponent then
      4 * significand - 1
    else 4 * significand - 2
  (4 * significand, low, 4 * significand + 2, exponent - 2, significand % 2 == 0)

/-- The multiple of `10 ^ place` nearest to a number of the format among those that
read back as it, given as a number of such units. -/
def onGrid? (format : BinaryFormat) (significand : Nat) (exponent place : Int) :
    Option Nat :=
  let (value, low, high, shift, closed) := interval format significand exponent
  let unit := (if 0 ≤ place then Nat.pow 10 place.toNat else 1) *
    (if shift < 0 then Nat.pow 2 (-shift).toNat else 1)
  let factor := (if place < 0 then Nat.pow 10 (-place).toNat else 1) *
    (if 0 ≤ shift then Nat.pow 2 shift.toNat else 1)
  let inside (n : Nat) : Bool :=
    if closed then low * factor ≤ n * unit && n * unit ≤ high * factor
    else low * factor < n * unit && n * unit < high * factor
  let below := value * factor / unit
  let above := below + 1
  let twice := 2 * (value * factor % unit)
  match inside below, inside above with
  | true, true =>
      if twice < unit then some below
      else if unit < twice then some above
      else some (below + below % 2)
  | true, false => some below
  | false, true => some above
  | false, false => none

/-- A decimal without zeros at the end of its digits. -/
def trim (fuel digits : Nat) (exponent : Int) : Decimal :=
  match fuel with
  | 0 => ⟨digits, exponent⟩
  | fuel + 1 =>
      if digits % 10 = 0 then trim fuel (digits / 10) (exponent + 1)
      else ⟨digits, exponent⟩

/-- The decimal with the fewest digits that reads back as the number of the format,
and of those the nearest to it. -/
def shortest (format : BinaryFormat) (significand : Nat) (exponent : Int) : Decimal :=
  let top := Ratio.decimalExponent (scaled significand exponent)
  let found := (List.range 17).findSome? fun (count : Nat) =>
    let place := top - (count : Int)
    (onGrid? format significand exponent place).map fun digits => (digits, place)
  match found with
  | some (digits, place) => trim 20 digits place
  | none => ⟨0, 0⟩

/-! ## Written form -/

/-- Where a float is written positionally and how its exponent looks: the power
of ten of the first digit lies in a range, and an exponent has a sign and at
least so many digits. -/
structure FloatLayout where
  lowest : Int
  highest : Int
  exponentDigits : Nat
  deriving DecidableEq, Repr

/-- Floats are positional from `1e-4` to below `1e16`, and an exponent has two
digits. -/
def layout : FloatLayout := ⟨-4, 15, 2⟩

/-- The digits of `n`, filled with zeros up to `width`. -/
def padded (width n : Nat) : String :=
  let digits := Nat.toDigits 10 n
  String.ofList (List.replicate (width - digits.length) '0' ++ digits)

/-- A positive decimal with a point, or with an exponent. -/
def Decimal.text (format : FloatLayout) (decimal : Decimal) : String :=
  let digits := Nat.toDigits 10 decimal.digits
  let first := decimal.exponent + digits.length - 1
  if format.lowest ≤ first ∧ first ≤ format.highest then
    if first < 0 then
      "0." ++ String.ofList (List.replicate (-first - 1).toNat '0' ++ digits)
    else
      let whole := first.toNat + 1
      let front := digits.take whole ++ List.replicate (whole - digits.length) '0'
      let back := digits.drop whole
      String.ofList front ++ "." ++ if back.isEmpty then "0" else String.ofList back
  else
    let back := digits.drop 1
    String.ofList (digits.take 1) ++
      (if back.isEmpty then "" else "." ++ String.ofList back) ++
      "e" ++ (if first < 0 then "-" else "+") ++ padded format.exponentDigits first.natAbs

/-- The text of a float from the parts of its magnitude and the format to read it
back in. -/
def textOf (format : BinaryFormat) (x : Float) (parts : Nat × Int → Nat × Int) : String :=
  match decode? x with
  | none => if x.isNaN then "nan" else if x < 0 then "-inf" else "inf"
  | some (negative, magnitude) =>
      let (significand, exponent) := parts magnitude
      let body :=
        if significand = 0 then "0.0"
        else (shortest format significand exponent).text layout
      if negative then "-" ++ body else body

/-- The shortest text that reads back as the double. -/
def text (x : Float) : String := textOf .double x id

/-- The significand and exponent of a magnitude in the format of 32 bits. -/
def singleParts (magnitude : Nat × Int) : Nat × Int :=
  let value := scaled magnitude.1 magnitude.2
  if value = 0 then magnitude
  else (BinaryFormat.single.nearest? value.num.natAbs value.den).getD magnitude

/-- The shortest text that reads back as the single. -/
def singleText (x : Float) : String := textOf .single x singleParts

/-- The rational that the shortest text of a finite double denotes. -/
def shortestRat? (x : Float) : Option Rat := do
  let (negative, significand, exponent) ← decode? x
  let decimal := if significand = 0 then ⟨0, 0⟩ else shortest .double significand exponent
  let value := Ratio.scaled 10 decimal.digits decimal.exponent
  some (if negative then -value else value)

end Double

end ExactAlgebra
