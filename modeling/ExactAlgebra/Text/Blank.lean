import ExactAlgebra.Text.Ranges

/-!
# Blank characters

The blank characters are those with the Unicode property `White_Space`, and the
four information separators U+001C to U+001F.
-/

namespace ExactAlgebra.Text

def blanks : CharRanges := #[
  (9, 13), (28, 32), (133, 133), (160, 160), (5760, 5760), (8192, 8202), (8232, 8233),
  (8239, 8239), (8287, 8287), (12288, 12288)]

/-- True for white space and for the information separators. -/
def isBlank (c : Char) : Bool := blanks.holds c

/-- The characters without the blanks at either end. -/
def trimBlanks (text : List Char) : List Char :=
  (((text.dropWhile isBlank).reverse).dropWhile isBlank).reverse

/-- `trimBlanks` on strings. -/
def strip (text : String) : String := String.ofList (trimBlanks text.toList)

/-- The words of a text: its maximal runs without blanks. -/
def words (text : List Char) : List (List Char) :=
  (text.splitBy fun a b => isBlank a == isBlank b).filter fun run =>
    run.head?.any fun c => !isBlank c

end ExactAlgebra.Text
