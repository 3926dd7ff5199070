import ExactAlgebra.Fault
import ExactAlgebra.Text.Blank
import ExactAlgebra.Text.Digit

/-!
# Tokens of infix text

A text is split into numbers, names, brackets, commas and runs of operator
characters.  At each position the classes are tried in this order and the token
is as long as its class allows.  Blanks separate tokens and belong to none.
-/

namespace ExactAlgebra

/-- The lexical classes. -/
inductive TokenKind where
  | number
  | name
  | operators
  | opening
  | closing
  | comma
  deriving DecidableEq, Repr

def TokenKind.text : TokenKind → String
  | .number => "number"
  | .name => "name"
  | .operators => "operators"
  | .opening => "open"
  | .closing => "close"
  | .comma => "comma"

/-- A lexical unit with its position in the text; `spaced` says that a blank
stands before it. -/
structure Token where
  kind : TokenKind
  text : String
  position : Nat
  spaced : Bool
  deriving DecidableEq, Repr

/-- The characters that names and operators are made of. -/
structure Alphabet where
  isExtraLetter : Char → Bool
  isOperator : Char → Bool

namespace Token

/-! ## Classes -/

/-- True for the characters that start a name. -/
def isLetter (alphabet : Alphabet) (c : Char) : Bool :=
  c.isAlpha || c == '_' || alphabet.isExtraLetter c

/-- True for the characters that continue a name. -/
def continuesName (alphabet : Alphabet) (c : Char) : Bool :=
  isLetter alphabet c || Text.isDigitLike c

/-- The length of the decimal digits at the front. -/
def digitsLength (text : List Char) : Nat := (text.takeWhile Text.isDecimalDigit).length

/-- The length of an exponent at the front; zero if it has no digits. -/
def exponentLength : List Char → Nat
  | mark :: rest =>
      if mark = 'e' ∨ mark = 'E' then
        match rest with
        | sign :: digits =>
            if sign = '-' ∨ sign = '+' then
              if digitsLength digits = 0 then 0 else digitsLength digits + 2
            else if digitsLength rest = 0 then 0 else digitsLength rest + 1
        | [] => 0
      else 0
  | [] => 0

/-- The length of the digits and the point at the front; zero without a digit. -/
def mantissaLength (text : List Char) : Nat :=
  let whole := digitsLength text
  match text.drop whole with
  | '.' :: rest =>
      let fraction := digitsLength rest
      if whole = 0 ∧ fraction = 0 then 0 else whole + 1 + fraction
  | _ => whole

/-- The length of the number at the front; zero if there is none. -/
def numberLength (text : List Char) : Nat :=
  let mantissa := mantissaLength text
  if mantissa = 0 then 0 else mantissa + exponentLength (text.drop mantissa)

/-- The class of the token that starts with `first`, and how many of the
characters that follow belong to it. -/
def lexeme? (alphabet : Alphabet) (first : Char) (rest : List Char) :
    Option (TokenKind × Nat) :=
  let number := numberLength (first :: rest)
  if 0 < number then some (.number, number - 1)
  else if isLetter alphabet first then
    some (.name, (rest.takeWhile (continuesName alphabet)).length)
  else if first = '(' then some (.opening, 0)
  else if first = ')' then some (.closing, 0)
  else if first = ',' then some (.comma, 0)
  else if alphabet.isOperator first then
    some (.operators, (rest.takeWhile alphabet.isOperator).length)
  else none

/-! ## Scanning -/

/-- The tokens of a text that starts at a position. -/
def scan (alphabet : Alphabet) (position : Nat) (spaced : Bool) (text : List Char) :
    Except Fault (List Token) :=
  match text with
  | [] => .ok []
  | first :: rest =>
      if Text.isBlank first then scan alphabet (position + 1) true rest
      else match lexeme? alphabet first rest with
        | none => .error (.parse (.invalidCharacter first) position)
        | some (kind, count) => do
            let token := ⟨kind, String.ofList (first :: rest.take count), position, spaced⟩
            return token :: (← scan alphabet (position + count + 1) false (rest.drop count))
termination_by text.length
decreasing_by
  · simp
  · simp only [List.length_drop, List.length_cons]
    omega

/-- The tokens of a text. -/
def ofText (alphabet : Alphabet) (text : String) : Except Fault (List Token) :=
  scan alphabet 0 false text.toList

/-- Class, text and position of a token. -/
def shown (token : Token) : String :=
  token.kind.text ++ " " ++ Text.quoted token.text ++ " at " ++ toString token.position

end Token

end ExactAlgebra
