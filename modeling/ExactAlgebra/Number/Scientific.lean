import ExactAlgebra.Fault
import ExactAlgebra.Number.Double
import ExactAlgebra.Text.Blank
import ExactAlgebra.Text.Digit

/-!
# Decimal numbers as written

A decimal number keeps the digits and the exponent that it was written with, and
may be infinite or no number at all.  Its written form is plain unless the
exponent is positive or the number is very small.
-/

namespace ExactAlgebra

/-- A decimal number. -/
inductive Scientific where
  | finite (negative : Bool) (digits : Nat) (exponent : Int)
  | infinite (negative : Bool)
  | undefined (negative : Bool)
  deriving DecidableEq, Repr

namespace Scientific

/-- The exact value of a finite decimal. -/
def toRat? : Scientific → Option Rat
  | finite negative digits exponent =>
      let value := Ratio.scaled 10 digits exponent
      some (if negative then -value else value)
  | _ => none

/-- The double nearest to a decimal; an infinity if it is too large. -/
def toFloat : Scientific → Float
  | undefined _ => 0.0 / 0.0
  | infinite negative => if negative then -1.0 / 0.0 else 1.0 / 0.0
  | finite negative digits exponent =>
      let magnitude := (finite false digits exponent).toRat?.bind Double.ofRat?
      let value := magnitude.getD (1.0 / 0.0)
      if negative then -value else value

/-- The written form. -/
def text : Scientific → String
  | undefined negative => if negative then "-NaN" else "NaN"
  | infinite negative => if negative then "-Infinity" else "Infinity"
  | finite negative digits exponent =>
      let written := Nat.toDigits 10 digits
      let first := exponent + written.length - 1
      let body :=
        if exponent ≤ 0 ∧ -6 ≤ first then
          let places := (-exponent).toNat
          if places = 0 then String.ofList written
          else
            let filled := List.replicate (places + 1 - written.length) '0' ++ written
            let whole := filled.length - places
            String.ofList (filled.take whole) ++ "." ++ String.ofList (filled.drop whole)
        else
          let rest := written.drop 1
          String.ofList (written.take 1) ++
            (if rest.isEmpty then "" else "." ++ String.ofList rest) ++
            "E" ++ (if first < 0 then "-" else "+") ++ toString first.natAbs
      if negative then "-" ++ body else body

/-- A sign at the front, true for minus, and the rest. -/
def signOf : List Char → Bool × List Char
  | '-' :: rest => (true, rest)
  | '+' :: rest => (false, rest)
  | rest => (false, rest)

/-- Decimal digits at the front, and the rest. -/
def digitsOf (text : List Char) : List Char × List Char :=
  (text.takeWhile Text.isDecimalDigit, text.dropWhile Text.isDecimalDigit)

/-- Reads a decimal number. -/
def ofText? (text : String) : Option Scientific :=
  let (negative, rest) := signOf (Text.trimBlanks text.toList)
  match (String.ofList rest).toLower with
  | "inf" | "infinity" => some (infinite negative)
  | "nan" => some (undefined negative)
  | _ => do
      let (whole, rest) := digitsOf rest
      let (fraction, rest) := match rest with
        | '.' :: rest => digitsOf rest
        | rest => ([], rest)
      if whole.isEmpty && fraction.isEmpty then none
      else
        let digits := Text.digitsValue (whole ++ fraction)
        match rest with
        | [] => some (finite negative digits (-fraction.length))
        | mark :: rest =>
            let (below, rest) := signOf rest
            match digitsOf rest with
            | (power, []) =>
                if (mark = 'e' ∨ mark = 'E') ∧ !power.isEmpty then
                  let power : Int := Text.digitsValue power
                  some (finite negative digits
                    ((if below then -power else power) - fraction.length))
                else none
            | _ => none

end Scientific

end ExactAlgebra
