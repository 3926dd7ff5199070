import ExactAlgebra.Expr.Writer
import ExactAlgebra.Number.Numeral
import ExactAlgebra.Number.Scientific

/-!
# Loosely typed values

Settings, substitutions and mixed arithmetic accept values of several types: a
number in any of its forms, a text, a container or an expression.  A `Value` is
one of them.  It has a type name, a shown and a plain text, and a truth value,
and it converts to an exact rational where that makes sense.
-/

namespace ExactAlgebra

/-- A value of one of the accepted types. -/
inductive Value where
  | none
  | bool (value : Bool)
  | integer (value : Int)
  | rational (value : Rat)
  | float (value : Float)
  | single (value : Float)
  | decimal (value : Scientific)
  | text (value : String)
  | list (entries : List Value)
  | tuple (entries : List Value)
  | set (members : List Value)
  | mapping (entries : List (String × Value))
  | node (value : Expr)
  deriving Inhabited

namespace Value

/-! ## Types -/

/-- The qualified name of the type. -/
def typeName : Value → String
  | none => "NoneType"
  | bool _ => "bool"
  | integer _ => "int"
  | rational _ => "fractions.Fraction"
  | float _ => "float"
  | single _ => "numpy.float32"
  | decimal _ => "decimal.Decimal"
  | text _ => "str"
  | list _ => "list"
  | tuple _ => "tuple"
  | set _ => "frozenset"
  | mapping _ => "dict"
  | node _ => "symcore.core.expression.Expression"

/-- The type as messages name it. -/
def type (value : Value) : String := "<class '" ++ value.typeName ++ "'>"

/-- The short name of the type, as operators name it. -/
def shortType : Value → String
  | rational _ => "Fraction"
  | node _ => "Expression"
  | value => value.typeName

/-! ## Texts -/

/-- A flag as a word. -/
def flagText (flag : Bool) : String := if flag then "True" else "False"

mutual

/-- The text that shows a value for what it is: texts are quoted, and containers
show their entries. -/
def shown : Value → String
  | none => "None"
  | bool value => flagText value
  | integer value => toString value
  | rational value => Fault.fraction value
  | float value => Double.text value
  | single value => "np.float32(" ++ Double.singleText value ++ ")"
  | decimal value => "Decimal('" ++ value.text ++ "')"
  | text value => Text.quoted value
  | list entries => "[" ++ ", ".intercalate (shownEntries entries) ++ "]"
  | tuple entries => Key.writtenTuple (shownEntries entries)
  | set members =>
      if members.isEmpty then "frozenset()"
      else "frozenset(\x7b" ++ ", ".intercalate (shownEntries members) ++ "\x7d)"
  | mapping entries => "\x7b" ++ ", ".intercalate (shownPairs entries) ++ "\x7d"
  | node value => "core.expression.Expression(" ++ value.toText ++ ")"

def shownEntries : List Value → List String
  | [] => []
  | entry :: rest => entry.shown :: shownEntries rest

def shownPairs : List (String × Value) → List String
  | [] => []
  | (name, entry) :: rest => (Text.quoted name ++ ": " ++ entry.shown) :: shownPairs rest

end

/-- The plain text of a value. -/
def plain : Value → String
  | rational value => Ratio.text value
  | single value => Double.singleText value
  | decimal value => value.text
  | text value => value
  | node value => value.toText
  | value => value.shown

/-! ## Truth and equality -/

/-- False for zero, for empty containers and texts, and for nothing. -/
def truth : Value → Bool
  | none => false
  | bool value => value
  | integer value => value != 0
  | rational value => value != 0
  | float value | single value => value != 0
  | decimal (.finite _ digits _) => digits != 0
  | decimal _ => true
  | text value => !value.isEmpty
  | list entries | tuple entries | set entries => !entries.isEmpty
  | mapping entries => !entries.isEmpty
  | node value => !value.isZero

/-- The exact value of a finite number of any form. -/
def number? : Value → Option Rat
  | bool value => some (if value then 1 else 0)
  | integer value => some value
  | rational value => some value
  | float value | single value => Double.toRat? value
  | decimal value => value.toRat?
  | _ => Option.none

mutual

/-- True for equal numbers of any form, equal texts, and containers of one type
with equal entries. -/
def same (a b : Value) : Bool :=
  match a, b with
  | none, none => true
  | text a, text b => a == b
  | list a, list b | tuple a, tuple b => sameEntries a b
  | set a, set b => includes a b && a.length == b.length
  | node a, node b => a.equals b
  | a, b =>
      match a.number?, b.number? with
      | some x, some y => x == y
      | _, _ => false

def sameEntries : List Value → List Value → Bool
  | [], [] => true
  | a :: as, b :: bs => same a b && sameEntries as bs
  | _, _ => false

/-- True if every entry of the first list is in the second. -/
def includes : List Value → List Value → Bool
  | [], _ => true
  | a :: as, bs => bs.any (fun b => same a b) && includes as bs

end

/-- A value that can be a member of a set: no list and no mapping, also inside of
tuples. -/
def asMember (value : Value) : Except Fault Value :=
  match value with
  | list _ | mapping _ => .error (.notHashable value.shortType)
  | tuple entries => do
      let _ ← checkEntries entries
      return tuple entries
  | value => .ok value
where
  checkEntries : List Value → Except Fault Unit
    | [] => .ok ()
    | entry :: rest => do
        let _ ← entry.asMember
        checkEntries rest

/-- The first of every group of equal values. -/
def distinct (values : List Value) : List Value :=
  (values.foldl (fun kept value =>
    if kept.any fun old => same old value then kept else value :: kept) []).reverse

/-! ## Stable form -/

mutual

/-- Sets as tuples in the order of the shown texts of their members, through all
tuples and sets. -/
def stable : Value → Value
  | set members =>
      tuple ((stableEntries members).mergeSort fun a b => decide (a.shown ≤ b.shown))
  | tuple entries => tuple (stableEntries entries)
  | value => value

def stableEntries : List Value → List Value
  | [] => []
  | entry :: rest => entry.stable :: stableEntries rest

end

/-! ## Rationals -/

/-- The rational that a float is written as. -/
def floatRational (value : Float) : Except Fault Rat :=
  match Double.shortestRat? value with
  | some exact => .ok exact
  | .none => .error (.notFinite (Double.text value))

/-- The exact rational of a number in any form, or of the numeral in a text. -/
def toRational (value : Value) : Except Fault Rat :=
  match value with
  | rational value => .ok value
  | bool flag => .error (.notNumeric (flagText flag))
  | integer value => .ok value
  | float value | single value => floatRational value
  | decimal value =>
      match value.toRat? with
      | some exact => .ok exact
      | .none => .error (.notFinite ("Decimal('" ++ value.text ++ "')"))
  | text value => Numeral.toRat value
  | value => .error (.notNumeric value.type)

end Value

end ExactAlgebra
