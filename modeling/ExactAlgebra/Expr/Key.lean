import ExactAlgebra.Fault

/-!
# Structural identities

A `Key` is the identity of an expression or of a part of it: a tuple of rationals,
names, groups and other keys, in which the children of a sum or product form a
set.  Sets are kept in ascending order without repetition, so that two keys name
the same structure exactly when they are equal.
-/

namespace ExactAlgebra

/-- The structural classes of expressions, from simplest to most complex. -/
inductive Group where
  | number
  | radical
  | symbol
  | exponential
  | call
  | polynomial
  | product
  | composite
  deriving DecidableEq, Repr

namespace Group

/-- The place of a group in the order of complexity, counted from one. -/
def rank : Group → Nat
  | number => 1
  | radical => 2
  | symbol => 3
  | exponential => 4
  | call => 5
  | polynomial => 6
  | product => 7
  | composite => 8

/-- The name of a group in structural identities. -/
def name : Group → String
  | number => "NUMBER"
  | radical => "RATIONAL_POWER"
  | symbol => "VARIABLE"
  | exponential => "SYMBOLIC_EXPONENT"
  | call => "FUNCTION"
  | polynomial => "POLYNOMIAL"
  | product => "COMBINATION"
  | composite => "COMPOSITE"

/-- All groups, by rank. -/
def all : List Group :=
  [number, radical, symbol, exponential, call, polynomial, product, composite]

/-- The group with a given name. -/
def ofName? (text : String) : Option Group := all.find? fun group => group.name == text

/-- The group with a given rank. -/
def ofRank? (rank : Int) : Option Group := all.find? fun group => (group.rank : Int) == rank

end Group

/-- A structural identity.  Tuples end in `nil`; the members of a set are a tuple
in strictly ascending order. -/
inductive Key where
  | rational (value : Rat)
  | name (text : String)
  | group (label : Group)
  | nil
  | cons (head tail : Key)
  | set (members : Key)
  deriving DecidableEq, Repr

namespace Key

/-! ## Tuples -/

def tuple : List Key → Key
  | [] => nil
  | key :: keys => cons key (tuple keys)

/-- The tuple with one more entry at its end. -/
def append (entry : Key) : Key → Key
  | cons head tail => cons head (append entry tail)
  | _ => cons entry nil

/-! ## Order and sets -/

/-- The rank of a constructor in the order of keys. -/
def rank : Key → Nat
  | rational _ => 0
  | name _ => 1
  | .group _ => 2
  | nil => 3
  | cons .. => 4
  | set _ => 5

/-- A linear order of keys. -/
def compare : Key → Key → Ordering
  | rational a, rational b => if a < b then .lt else if a = b then .eq else .gt
  | name a, name b => if a < b then .lt else if a = b then .eq else .gt
  | .group a, .group b => Ord.compare a.rank b.rank
  | cons a s, cons b t => (compare a b).then (compare s t)
  | set a, set b => compare a b
  | a, b => Ord.compare a.rank b.rank

/-- An ascending list with one more member, in its place. -/
def insertMember (key : Key) : List Key → List Key
  | [] => [key]
  | first :: rest =>
      match compare key first with
      | .lt => key :: first :: rest
      | .eq => first :: rest
      | .gt => first :: insertMember key rest

/-- The ascending list without repetitions. -/
def ascending (keys : List Key) : List Key := keys.foldr insertMember []

/-- The set of some keys. -/
def setOf (members : List Key) : Key := set (tuple (ascending members))

/-! ## Written form -/

/-- A tuple of written entries; a lone entry is followed by a comma. -/
def writtenTuple : List String → String
  | [entry] => "(" ++ entry ++ ",)"
  | entries => "(" ++ ", ".intercalate entries ++ ")"

mutual

/-- The written form of a key.  A set is written as the tuple of its members in
the order of their written forms. -/
def text : Key → String
  | rational value => Fault.fraction value
  | name text => Text.quoted text
  | .group label => "<Group." ++ label.name ++ ": " ++ toString label.rank ++ ">"
  | nil => "()"
  | cons head tail => writtenTuple (text head :: entries tail)
  | set members => writtenTuple ((entries members).mergeSort fun a b => decide (a ≤ b))

/-- The written entries of a tuple. -/
def entries : Key → List String
  | cons head tail => text head :: entries tail
  | _ => []

end

end Key

end ExactAlgebra
