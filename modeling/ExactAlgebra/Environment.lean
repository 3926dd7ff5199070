import ExactAlgebra.Function.Table
import ExactAlgebra.Reading.Postfix
import ExactAlgebra.Settings

/-!
# Environments

Text and function calls mean something relative to an environment: the settings,
the functions and the operators in force.  A name in a text stands for a
substitution, a registered variable, a named constant or a free variable.  The
bodies of user-defined functions and the texts of registered variables are read
in turn, down to a fixed depth.
-/

namespace ExactAlgebra

/-- What text and calls are evaluated in. -/
structure Environment where
  settings : Settings
  functions : FunctionTable
  operators : OperatorTable

/-- Expressions in place of names. -/
abbrev Substitutions := List (String × Expr)

/-- A way to read a text in an environment. -/
abbrev Reader := Environment → Substitutions → String → Except Fault Expr

namespace Environment

/-- The built-in settings, functions and operators. -/
def standard : Environment := ⟨.standard, .standard, .standard⟩

def mode (env : Environment) : Mode := env.settings.mode

/-! ## Calls -/

/-- The rational that a method on floats gives. -/
def approximation (name : String) (method : List Float → Option Float) (values : List Rat) :
    Except Fault Expr :=
  match (values.mapM Double.ofRat?).bind method with
  | none => .error (.undefinedHere name)
  | some result =>
      match Double.shortestRat? result with
      | some value => .ok (.number value)
      | none => .error (.undefinedAt name values)

/-- The value of a call: exact if there is one, else approximate in numeric mode,
else the call itself. -/
def evaluateCall (env : Environment) (read : Reader) (name : String) (definition : Definition)
    (args : List Expr) : Except Fault Expr :=
  match definition with
  | .byBody parameters body => read env (parameters.zip args) body
  | .builtIn rule => do
      match ← rule.exact env.mode args with
      | some result => return result
      | none =>
          match rule.approximate, Rule.constants? args with
          | some method, some values =>
              if env.mode.numeric then approximation name method values
              else return .apply name args
          | _, _ => return .apply name args

/-- A function applied to arguments. -/
def callWith (env : Environment) (read : Reader) (name : String) (args : List Expr) :
    Except Fault Expr :=
  match env.functions.get? name with
  | none => .error (.unknownFunction name)
  | some entry =>
      if entry.arity.accepts args.length then
        Arithmetic.guarded env.mode (env.evaluateCall read name entry.definition args)
          (.ok (.apply name args))
      else .error (.argumentCount name args.length)

/-- An operation on operands, of which there must be the right number. -/
def operateWith (env : Environment) (read : Reader) (operation : Operation)
    (operands : List Expr) : Except Fault Expr :=
  match operation, operands with
  | .add, [a, b] => Arithmetic.add a b
  | .subtract, [a, b] => Arithmetic.subtract a b
  | .multiply, [a, b] => Arithmetic.multiply env.mode a b
  | .divide, [a, b] => Arithmetic.divide env.mode a b
  | .pow, [a, b] => Arithmetic.pow env.mode a b
  | .negate, [a] => .ok (Arithmetic.negate a)
  | .invert, [a] => Arithmetic.invert env.mode a
  | .identity, [a] => .ok a
  | .factorial, [a] => env.callWith read "factorial" [a]
  | .doubleFactorial, [a] => env.callWith read "dfactorial" [a]
  | .percent, [a] => Arithmetic.multiply env.mode a (.number (1 / 100))
  | operation, operands => .error (operation.countFault operands.length)

/-! ## Names -/

/-- The characters of names and operators. -/
def alphabet (env : Environment) (table : OperatorTable) : Alphabet where
  isExtraLetter c := env.settings.extraLetters.contains c
  isOperator := table.hasCharacter

/-- The expression that a registered variable stands for.  Its text does not see
the registered variables. -/
def valueOf (env : Environment) (read : Reader) : Binding → Except Fault Expr
  | .node value => .ok value
  | .rational value => .ok (.number value)
  | .text text => read { env with settings := { env.settings with bindings := [] } } [] text

/-- The float of a named constant. -/
def constant? (name : String) : Option Float :=
  match name with
  | "pi" => some Approximation.pi
  | "e" => some Approximation.e
  | _ => none

/-- The value that a name has by itself. -/
def freeName (env : Environment) (name : String) : Except Fault Expr :=
  match constant? name with
  | some value =>
      if env.mode.numeric then return .number (← Reduce.rationalOf value)
      else .ok (.named name)
  | none => .ok (.named name)

/-- The operand that a name at a position stands for. -/
def operand (env : Environment) (read : Reader) (substitutions : Substitutions) (name : String)
    (position : Nat) : Except Fault Expr :=
  match substitutions.find? fun entry => entry.1 == name with
  | some entry => .ok entry.2
  | none =>
      if env.functions.contains name then .error (.parse (.needsArguments name) position)
      else match env.settings.binding? name with
        | some binding => env.valueOf read binding
        | none => env.freeName name

/-! ## Texts -/

/-- What a notation means in an environment. -/
def grammar (env : Environment) (read : Reader) (table : OperatorTable)
    (substitutions : Substitutions) : Grammar Expr where
  table := table
  isFunction := env.functions.contains
  accepts := env.functions.accepts
  number text := return .number (← Numeral.toRat text)
  name := env.operand read substitutions

/-- The value of a sequence in postfix order, given the operands before it from the
last to the first. -/
def evaluateItems (env : Environment) (read : Reader) (stack : List Expr) :
    List (PostfixItem Expr) → Except Fault Expr
  | [] =>
      match stack with
      | [] => .error (.parse .empty 0)
      | value :: _ => .ok value
  | .operand value :: items => env.evaluateItems read (value :: stack) items
  | .operator operator :: items => do
      let operands := (stack.take operator.arity).reverse
      let value ← env.operateWith read operator.operation operands
      env.evaluateItems read (value :: stack.drop operator.arity) items
  | .call name count :: items => do
      let value ← env.callWith read name (stack.take count).reverse
      env.evaluateItems read (value :: stack.drop count) items
  | .missingProduct :: _ => .error .noProduct

/-- The tokens of a text. -/
def tokens (env : Environment) (table : OperatorTable) (text : String) :
    Except Fault (List Token) :=
  Token.ofText (env.alphabet table) text

/-- The expression that a text in some notation denotes. -/
def readWith (env : Environment) (read : Reader) (table : OperatorTable)
    (substitutions : Substitutions) (text : String) : Except Fault Expr := do
  let tokens ← env.tokens table text
  if tokens.isEmpty then throw (.parse .empty 0)
  let items ← Postfix.ofTokens (env.grammar read table substitutions) tokens text.length
  env.evaluateItems read [] items

/-! ## Nested texts -/

/-- The expression that a text denotes, with at most `depth` levels of texts. -/
def readNested : (depth : Nat) → Reader
  | 0, _, _, _ => .error .tooDeep
  | depth + 1, env, substitutions, text =>
      env.readWith (readNested depth) env.operators substitutions text

/-- The greatest depth of nested texts. -/
def deepest : Nat := 128

/-- The expression that a text denotes under some substitutions. -/
def readText (env : Environment) (substitutions : Substitutions) (text : String) :
    Except Fault Expr :=
  readNested deepest env substitutions text

/-- The expression that a text denotes with the built-in settings. -/
def read (text : String) : Except Fault Expr := standard.readText [] text

/-- `readText` in the notation of another table of operators. -/
def readTextIn (env : Environment) (table : OperatorTable) (substitutions : Substitutions)
    (text : String) : Except Fault Expr :=
  env.readWith (readNested deepest) table substitutions text

/-- The postfix order of the tokens of a text. -/
def postfixOf (env : Environment) (table : OperatorTable) (substitutions : Substitutions)
    (text : String) : Except Fault (List (PostfixItem Expr)) := do
  Postfix.ofTokens (env.grammar (readNested deepest) table substitutions)
    (← env.tokens table text) text.length

/-- A function applied to arguments. -/
def call (env : Environment) (name : String) (args : List Expr) : Except Fault Expr :=
  env.callWith (readNested deepest) name args

/-- An operation on operands. -/
def operate (env : Environment) (operation : Operation) (operands : List Expr) :
    Except Fault Expr :=
  env.operateWith (readNested deepest) operation operands

/-! ## User-defined functions -/

/-- Adds a function whose body can be read. -/
def defineFunction (env : Environment) (name : String) (parameters : List String)
    (body : String) (overwrite : Bool) : Except Fault Environment := do
  FunctionTable.checkNames name parameters
  let _ ← env.readText [] body
  let functions ← env.functions.define name parameters body overwrite
  return { env with functions := functions }

/-- Removes a user-defined function. -/
def undefineFunction (env : Environment) (name : String) : Except Fault Environment := do
  return { env with functions := ← env.functions.undefine name }

/-! ## Loosely typed values -/

/-- The expression that a value of a suitable type stands for. -/
def toExpr (env : Environment) (value : Value) : Except Fault Expr :=
  match value with
  | .node node => .ok node
  | .bool flag => .error (.notConvertible (Value.flagText flag))
  | .integer number => .ok (.number number)
  | .rational number => .ok (.number number)
  | .text text => env.readText [] text
  | value => .error (.notConvertible value.type)

/-- Substitutions by values of suitable types. -/
def substitutionsOf (env : Environment) (values : List (String × Value)) :
    Except Fault Substitutions :=
  values.mapM fun entry => return (entry.1, ← env.toExpr entry.2)

/-- The expression that a value denotes, which has to be a text. -/
def readValue (env : Environment) (table : OperatorTable) (substitutions : Substitutions)
    (value : Value) : Except Fault Expr :=
  match value with
  | .text text => env.readTextIn table substitutions text
  | value => .error (.notText value.type)

end Environment

end ExactAlgebra
