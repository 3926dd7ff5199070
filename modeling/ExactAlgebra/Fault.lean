import ExactAlgebra.Number.Ratio
import ExactAlgebra.Text.Quoted

/-!
# Causes of failure

Every operation of the library that can fail answers with a `Fault`.  A fault
records its cause; `Fault.message` words it, and `Fault.kind` says which family
it belongs to.  Domain faults are those that error suppression may replace by an
unevaluated call.
-/

namespace ExactAlgebra

/-! ## Causes -/

/-- Why a text is not an expression. -/
inductive ParseFault where
  | empty
  | invalidCharacter (character : Char)
  | missingOperand
  | unexpectedEnd
  | unexpectedComma
  | unmatchedClose
  | unmatchedOpen
  | emptyBrackets
  | unknownFunction (name : String)
  | needsArguments (name : String)
  | unknownOperator (run : String)
  | unknownPrefix (run : String)
  | argumentCount (name : String) (count : Nat)
  deriving DecidableEq, Repr

/-- Why a configuration text is refused before its settings are looked at. -/
inductive IniFault where
  | missingSectionHeader
  | parsing
  | duplicateOption
  | duplicateSection
  | interpolationSyntax
  | interpolationMissingOption
  | interpolationDepth
  deriving DecidableEq, Repr

/-- Why an operation has no result. -/
inductive Fault where
  /-- The budget of nested engine calls is used up. -/
  | exhausted
  /-- Calls of user-defined functions nest too deeply. -/
  | tooDeep
  | parse (cause : ParseFault) (position : Nat)
  -- Undefined results.
  | zeroToZero
  | zeroToNegative (power : Rat)
  | divisionByZero (dividend : Rat)
  | moduloByZero (dividend : Rat)
  | symbolicModuloByZero
  | outOfRange (base power : Rat)
  | logarithmOfZero (name : String)
  | logarithmBase (base : Rat)
  | undefinedFor (label : String) (argument : Int)
  | undefinedHere (name : String)
  | undefinedAt (name : String) (arguments : List Rat)
  | fractionalPlaces (places : Rat)
  -- Numbers.
  | notNumeric (shown : String)
  | notFinite (shown : String)
  | notNumeral (text : String)
  | zeroDenominator (numerator : Int)
  | floatOverflow
  | zeroToNegativeFloat
  | rootOfNegative (radicand : Int)
  | rootDegree (degree : Int)
  | noFactors (number : Int)
  | noPerfectPower (number : Int)
  -- Operands.
  | notExpression (type : String) (operation : Option String)
  | notConvertible (shown : String)
  | notText (type : String)
  | notConstant (text type : String)
  | unsupportedOperands (operator left right : String)
  | repeatedSequence (factor : String)
  | joinedSequence (sequence other : String)
  | noTerms
  | unknownGroup (group : Int)
  -- Functions.
  | unknownFunction (name : String)
  | argumentCount (name : String) (count : Nat)
  | notName (text : String)
  | repeatedParameter (names : List String)
  | registered (name : String)
  | notRegistered (name : String)
  | notUserDefined (name : String)
  -- Operators.
  | unknownRole (role : String)
  | unknownAssociativity (associativity : String)
  | operatorExists (role symbol : String)
  | noKey (key : String)
  | missingOperands (operation : String) (operands : List String)
  | surplusOperands (operation : String) (least most actual : Nat)
  | notPlain (type : String)
  | noProduct
  | noPrecedence
  -- Settings.
  | unknownSetting (key : String)
  | noAttribute (key : String)
  | imaginaryName (shown : String)
  | wideCharacter
  | notIterable (type : String)
  | notHashable (type : String)
  | noLength (type : String)
  | notMapping (type : String)
  | variableName (shown : String)
  | variableValue (type name : String)
  | unknownVariables (names : List String)
  | unknownOption (key path : String)
  | optionValue (raw key path : String)
  | ini (cause : IniFault)
  | missingCases (names : List String)
  deriving DecidableEq, Repr

/-- The families of faults. -/
inductive FaultKind where
  | budget
  | depth
  | parse
  | domain
  | divisionByZero
  | operand
  | key
  | value
  | type
  | overflow
  | zeroDivision
  | attribute
  | ini (cause : IniFault)
  deriving DecidableEq, Repr

namespace ParseFault

/-- The description of a parse fault. -/
def message : ParseFault → String
  | empty => "Empty expression"
  | invalidCharacter character =>
      "Invalid character " ++ Text.quoted (String.singleton character)
  | missingOperand => "Missing operand"
  | unexpectedEnd => "Unexpected end of expression"
  | unexpectedComma => "Unexpected ','"
  | unmatchedClose => "Unmatched ')'"
  | unmatchedOpen => "Unmatched '('"
  | emptyBrackets => "Empty brackets"
  | unknownFunction name => "Unknown function " ++ Text.quoted name
  | needsArguments name => "Function " ++ Text.quoted name ++ " requires arguments"
  | unknownOperator run => "Unknown operator " ++ Text.quoted run
  | unknownPrefix run => "Unknown prefix operator " ++ Text.quoted run
  | argumentCount name count =>
      name ++ " does not accept " ++ toString count ++ " argument(s)"

end ParseFault

namespace Fault

/-! ## Families -/

def kind : Fault → FaultKind
  | exhausted => .budget
  | tooDeep => .depth
  | parse .. => .parse
  | zeroToZero | outOfRange .. | logarithmOfZero _ | logarithmBase _ | undefinedFor .. |
    undefinedHere _ | undefinedAt .. | fractionalPlaces _ => .domain
  | zeroToNegative _ | divisionByZero _ | moduloByZero _ | symbolicModuloByZero =>
      .divisionByZero
  | notFinite _ | notNumeral _ | rootOfNegative _ | rootDegree _ | noFactors _ |
    noPerfectPower _ | unknownGroup _ | notName _ | repeatedParameter _ | unknownRole _ |
    unknownAssociativity _ | imaginaryName _ | wideCharacter | variableName _ |
    optionValue .. => .value
  | zeroDenominator _ | zeroToNegativeFloat => .zeroDivision
  | floatOverflow => .overflow
  | notExpression .. => .operand
  | notNumeric _ | notConvertible _ | notText _ | notConstant .. | unsupportedOperands .. |
    repeatedSequence _ | joinedSequence .. | argumentCount .. | missingOperands .. |
    surplusOperands .. | notPlain _ | notIterable _ | notHashable _ | noLength _ | notMapping _ |
    variableValue .. | missingCases _ => .type
  | unknownFunction _ | registered _ | notRegistered _ | notUserDefined _ |
    operatorExists .. | noKey _ | unknownSetting _ | unknownVariables _ |
    unknownOption .. => .key
  | noTerms | noProduct | noPrecedence | noAttribute _ => .attribute
  | ini cause => .ini cause

/-- True for results that are mathematically undefined. -/
def isDomain (fault : Fault) : Bool :=
  match fault.kind with
  | .domain | .divisionByZero => true
  | _ => false

/-- The position of a parse fault in the text. -/
def position? : Fault → Option Nat
  | parse _ position => some position
  | _ => none

/-! ## Wording -/

/-- Names in quotes between square brackets. -/
def listed (names : List String) : String :=
  "[" ++ ", ".intercalate (names.map Text.quoted) ++ "]"

/-- A rational as a pair of numerator and denominator. -/
def fraction (a : Rat) : String :=
  "Fraction(" ++ toString a.num ++ ", " ++ toString a.den ++ ")"

/-- A count with its noun. -/
def counted (count : Nat) (noun : String) : String :=
  toString count ++ " " ++ noun ++ if count = 1 then "" else "s"

/-- The wording of a fault. -/
def message : Fault → String
  | exhausted => "Evaluation budget exhausted"
  | tooDeep => ""
  | parse cause position =>
      cause.message ++ " (at position " ++ toString position ++ ")"
  | zeroToZero => "0^0 is undefined"
  | zeroToNegative power => "Can't raise zero to the power " ++ Ratio.text power
  | divisionByZero dividend => "Can't divide " ++ Ratio.text dividend ++ " by zero"
  | moduloByZero dividend => "Can't compute " ++ Ratio.text dividend ++ " modulo zero"
  | symbolicModuloByZero => "mod(x, 0) is undefined"
  | outOfRange base power =>
      Ratio.text base ++ "^" ++ Ratio.text power ++ " is out of numeric range"
  | logarithmOfZero name => name ++ "(0) is undefined"
  | logarithmBase base => "Invalid logarithm base " ++ Ratio.text base
  | undefinedFor label argument => label ++ " is undefined for " ++ toString argument
  | undefinedHere name => name ++ " is undefined here"
  | undefinedAt name arguments =>
      name ++ " is undefined at [" ++ ", ".intercalate (arguments.map fraction) ++ "]"
  | fractionalPlaces places =>
      "round needs an integer number of places, not " ++ Ratio.text places
  | notNumeric shown | notFinite shown => "Can't create a rational number from " ++ shown
  | notNumeral text => "Invalid literal for Fraction: " ++ Text.quoted text
  | zeroDenominator numerator => "Fraction(" ++ toString numerator ++ ", 0)"
  | floatOverflow => "integer division result too large for a float"
  | zeroToNegativeFloat => "0.0 cannot be raised to a negative power"
  | rootOfNegative radicand => "Can't take an integer root of " ++ toString radicand
  | rootDegree degree => "Root degree must be positive, not " ++ toString degree
  | noFactors number => "Can't factor " ++ toString number
  | noPerfectPower number => "Can't reduce " ++ toString number ++ " to a perfect power"
  | notExpression type operation =>
      let place := match operation with
        | some name => if name.isEmpty then "" else " in " ++ name
        | none => ""
      "Expected an expression node" ++ place ++ ", not " ++ type
  | notConvertible shown => "Can't convert " ++ shown ++ " to an expression"
  | notText type => "Can't parse " ++ type
  | notConstant text type =>
      "Can't convert non-constant expression " ++ text ++ " to " ++ type
  | unsupportedOperands operator left right =>
      "unsupported operand type(s) for " ++ operator ++ ": '" ++ left ++ "' and '" ++
        right ++ "'"
  | repeatedSequence factor => "can't multiply sequence by non-int of type '" ++ factor ++ "'"
  | joinedSequence sequence other =>
      "can only concatenate " ++ sequence ++ " (not \"" ++ other ++ "\") to " ++ sequence
  | noTerms => "'NoneType' object has no attribute 'values'"
  | unknownGroup group => toString group ++ " is not a valid Group"
  | unknownFunction name => "Unknown function " ++ Text.quoted name
  | argumentCount name count =>
      name ++ " does not accept " ++ toString count ++ " argument(s)"
  | notName text => Text.quoted text ++ " is not a valid name"
  | repeatedParameter names => "Repeated parameter in " ++ listed names
  | registered name => Text.quoted name ++ " is already registered"
  | notRegistered name => Text.quoted name ++ " is not registered"
  | notUserDefined name => "No user-defined function called " ++ Text.quoted name
  | unknownRole role => "Unknown operator role " ++ Text.quoted role
  | unknownAssociativity associativity =>
      "Unknown associativity " ++ Text.quoted associativity
  | operatorExists role symbol =>
      "A " ++ role ++ " operator " ++ Text.quoted symbol ++ " exists"
  | noKey key => key
  | missingOperands operation operands =>
      operation ++ "() missing " ++ counted operands.length "required positional argument" ++
        ": " ++ " and ".intercalate (operands.map Text.quoted)
  | surplusOperands operation least most actual =>
      let range := if least = most then "" else "from " ++ toString least ++ " to "
      operation ++ "() takes " ++ range ++ counted most "positional argument" ++ " but " ++
        toString actual ++ (if actual = 1 then " was given" else " were given")
  | notPlain type => "__str__ returned non-string (type " ++ type ++ ")"
  | noProduct => "'NoneType' object has no attribute 'arity'"
  | noPrecedence => "'NoneType' object has no attribute 'role'"
  | unknownSetting key => "No setting named " ++ Text.quoted key
  | noAttribute key => key
  | imaginaryName shown => "Imaginary unit must be a valid name, not " ++ shown
  | wideCharacter => "Allowed variable characters must be single characters"
  | notIterable type => "'" ++ type ++ "' object is not iterable"
  | notHashable type => "unhashable type: '" ++ type ++ "'"
  | noLength type => "object of type '" ++ type ++ "' has no len()"
  | notMapping type => "Variables must be a mapping, not " ++ type
  | variableName shown => "Invalid variable name " ++ shown
  | variableValue type name => "Can't use " ++ type ++ " as the value of " ++ Text.quoted name
  | unknownVariables names => "No registered variables " ++ listed names
  | unknownOption key path => "Unknown setting " ++ Text.quoted key ++ " in " ++ path
  | optionValue raw key path =>
      "Invalid value " ++ Text.quoted raw ++ " for " ++ Text.quoted key ++ " in " ++ path
  | ini _ => ""
  | missingCases names => "Dispatch table has no entry for " ++ ", ".intercalate names

end Fault

end ExactAlgebra
