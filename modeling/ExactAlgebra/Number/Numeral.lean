import ExactAlgebra.Fault
import ExactAlgebra.Text.Blank
import ExactAlgebra.Text.Digit

/-!
# Numerals

The written form of a rational number is a sign, and then either a fraction of
two whole numbers or a decimal with an optional exponent.  Single underscores may
separate digits.  Blanks around the whole are ignored, and nowhere else allowed.
-/

namespace ExactAlgebra.Numeral

/-! ## Parts of a numeral -/

/-- Digits from the front of a text, and the rest.  A single underscore between
two digits is left out; `after` says that a digit stands before the text. -/
def digitRun (after : Bool) : List Char → List Char × List Char
  | [] => ([], [])
  | c :: rest =>
      if Text.isDecimalDigit c then
        let (more, tail) := digitRun true rest
        (c :: more, tail)
      else if after && c == '_' && rest.head?.any Text.isDecimalDigit then
        digitRun false rest
      else ([], c :: rest)

/-- The digits at the front of a text, and the rest. -/
def digits (text : List Char) : List Char × List Char := digitRun false text

/-- The sign of a numeral, true for minus, and the rest of the text. -/
def signOf : List Char → Bool × List Char
  | '-' :: rest => (true, rest)
  | '+' :: rest => (false, rest)
  | rest => (false, rest)

/-- The exponent of a decimal, zero if there is none. -/
def exponent? (text : List Char) : Option (Int × List Char) :=
  match text with
  | c :: rest =>
      if c = 'e' ∨ c = 'E' then
        let (negative, rest) := signOf rest
        match digits rest with
        | ([], _) => none
        | (power, rest) =>
            let value : Int := Text.digitsValue power
            some (if negative then -value else value, rest)
      else some (0, text)
  | [] => some (0, [])

/-! ## Reading -/

/-- What a numeral can denote: a number, or a fraction over zero. -/
inductive Reading where
  | number (value : Rat)
  | overZero (numerator : Int)
  deriving DecidableEq, Repr

/-- The reading of a numeral without its sign. -/
def magnitude? (negative : Bool) (text : List Char) : Option Reading :=
  let signed (n : Nat) : Int := if negative then -(n : Int) else n
  let (whole, rest) := digits text
  match rest with
  | '/' :: rest =>
      match whole, digits rest with
      | [], _ | _, ([], _) | _, (_, _ :: _) => none
      | _, (denominator, []) =>
          let numerator := signed (Text.digitsValue whole)
          if Text.digitsValue denominator = 0 then some (.overZero numerator)
          else some (.number (mkRat numerator (Text.digitsValue denominator)))
  | '.' :: rest => do
      let (fraction, rest) := digits rest
      if whole.isEmpty && fraction.isEmpty then none
      else
        let (exponent, rest) ← exponent? rest
        if rest.isEmpty then
          some (.number (Ratio.scaled 10 (signed (Text.digitsValue (whole ++ fraction)))
            (exponent - fraction.length)))
        else none
  | rest => do
      let (exponent, rest) ← exponent? rest
      if whole.isEmpty || !rest.isEmpty then none
      else some (.number (Ratio.scaled 10 (signed (Text.digitsValue whole)) exponent))

/-- The reading of a numeral with blanks around it. -/
def reading? (text : List Char) : Option Reading :=
  let (negative, rest) := signOf (Text.trimBlanks text)
  magnitude? negative rest

/-- The rational that a text denotes. -/
def toRat (text : String) : Except Fault Rat :=
  match reading? text.toList with
  | some (.number value) => .ok value
  | some (.overZero numerator) => .error (.zeroDenominator numerator)
  | none => .error (.notNumeral (Text.strip text))

end ExactAlgebra.Numeral
