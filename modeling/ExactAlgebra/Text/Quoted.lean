import ExactAlgebra.Text.Printable

/-!
# Quoted text

A text is shown between single quotes, or between double quotes if it holds a
single quote and no double quote.  The quote in use and the backslash are
escaped, and so is every character that is not printable.  The strict form for
data exchange always takes double quotes and escapes all but printable ASCII in
units of sixteen bits.
-/

namespace ExactAlgebra.Text

/-- The lower-case hexadecimal digits of `n`, filled with zeros up to `width`. -/
def hexadecimal (width n : Nat) : String :=
  let digits := Nat.toDigits 16 n
  String.ofList (List.replicate (width - digits.length) '0' ++ digits)

/-- One character inside of quotes. -/
def quoteChar (quote c : Char) : String :=
  if c = quote ∨ c = '\\' then String.ofList ['\\', c]
  else if c = '\n' then "\\n"
  else if c = '\r' then "\\r"
  else if c = '\t' then "\\t"
  else if isPrintable c then String.singleton c
  else if c.toNat < 256 then "\\x" ++ hexadecimal 2 c.toNat
  else if c.toNat < 65536 then "\\u" ++ hexadecimal 4 c.toNat
  else "\\U" ++ hexadecimal 8 c.toNat

/-- The text between quotes, with escapes. -/
def quoted (text : String) : String :=
  let characters := text.toList
  let quote := if characters.contains '\'' && !characters.contains '"' then '"' else '\''
  String.singleton quote ++ String.join (characters.map (quoteChar quote)) ++
    String.singleton quote

/-- The sixteen-bit units of a character. -/
def units (c : Char) : List Nat :=
  if c.toNat < 65536 then [c.toNat]
  else
    let rest := c.toNat - 65536
    [55296 + rest / 1024, 56320 + rest % 1024]

/-- One character of the strict form. -/
def strictChar (c : Char) : String :=
  if c = '"' ∨ c = '\\' then String.ofList ['\\', c]
  else if c = '\n' then "\\n"
  else if c = '\r' then "\\r"
  else if c = '\t' then "\\t"
  else if c.toNat = 8 then "\\b"
  else if c.toNat = 12 then "\\f"
  else if ' ' ≤ c ∧ c ≤ '~' then String.singleton c
  else String.join ((units c).map fun unit => "\\u" ++ hexadecimal 4 unit)

/-- The text between double quotes in printable ASCII. -/
def strictlyQuoted (text : String) : String :=
  "\"" ++ String.join (text.toList.map strictChar) ++ "\""

end ExactAlgebra.Text
