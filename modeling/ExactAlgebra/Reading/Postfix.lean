import ExactAlgebra.Operator
import ExactAlgebra.Reading.Token

/-!
# Postfix order

Tokens of infix text are rewritten so that operators and calls follow their
operands.  Operators wait on a stack until one that binds less tightly arrives.
A run of operator characters after an operand is read as operators after it, one
operator between operands, and operators before the next operand; in front of an
operand it can only be the last of these.  Two adjacent operands are multiplied.
-/

namespace ExactAlgebra

/-! ## Items and stacks -/

/-- An item in postfix order.  An implicit product is missing if the notation has
no operator for it. -/
inductive PostfixItem (α : Type) where
  | operand (value : α)
  | operator (operator : Operator)
  | call (name : String) (count : Nat)
  | missingProduct
  deriving Repr

/-- An open bracket: its position in the text, its place among the tokens, the
function it belongs to, and the commas in it. -/
structure Bracket where
  position : Nat
  index : Nat
  function : Option String
  commas : Nat
  deriving DecidableEq, Repr

/-- What waits on the stack. -/
inductive Waiting where
  | operator (operator : Operator)
  | bracket (bracket : Bracket)
  | missingProduct
  deriving DecidableEq, Repr

/-- What the grammar of a notation knows: its operators, its functions, and the operands that
numbers and names stand for. -/
structure Grammar (α : Type) where
  table : OperatorTable
  isFunction : String → Bool
  accepts : String → Nat → Bool
  number : String → Except Fault α
  name : String → Nat → Except Fault α

/-- A conversion under way; the output is in reverse. -/
structure Conversion (α : Type) where
  output : List (PostfixItem α)
  stack : List Waiting
  expecting : Bool

namespace Postfix

variable {α : Type}

/-! ## The stack -/

/-- Output of what waits, brackets apart. -/
def Waiting.item? : Waiting → Option (PostfixItem α)
  | .operator operator => some (.operator operator)
  | .missingProduct => some .missingProduct
  | .bracket _ => none

/-- Applies the waiting operators that bind tighter than the next operator. -/
def yield (next : Operator) (output : List (PostfixItem α)) :
    List Waiting → List (PostfixItem α) × List Waiting
  | .operator operator :: stack =>
      if operator.yieldsTo next then yield next (.operator operator :: output) stack
      else (output, .operator operator :: stack)
  | stack => (output, stack)

/-- Puts an operator between operands on the stack. -/
def push (next : Operator) (state : Conversion α) : Conversion α :=
  let (output, stack) := yield next state.output state.stack
  ⟨output, .operator next :: stack, state.expecting⟩

/-- Puts an implicit product on the stack. -/
def pushProduct (table : OperatorTable) (state : Conversion α) :
    Except Fault (Conversion α) :=
  match table.find? "*" .between, state.stack with
  | some product, _ => .ok { push product state with expecting := true }
  | none, .operator _ :: _ => .error .noPrecedence
  | none, stack => .ok ⟨state.output, .missingProduct :: stack, true⟩

/-- Applies everything above the innermost open bracket and takes the bracket. -/
def unwind (output : List (PostfixItem α)) :
    List Waiting → Option (Bracket × List (PostfixItem α) × List Waiting)
  | [] => none
  | .bracket bracket :: stack => some (bracket, output, stack)
  | .operator operator :: stack => unwind (.operator operator :: output) stack
  | .missingProduct :: stack => unwind (.missingProduct :: output) stack

/-! ## Runs of operator characters -/

/-- A run as a chain of operators before an operand. -/
def prefixes (table : OperatorTable) (position : Nat) (run : List Char) :
    Except Fault (List Operator) :=
  match run with
  | [] => .ok []
  | first :: rest =>
      match _h : table.longest? .before (first :: rest) with
      | none => .error (.parse (.unknownPrefix (String.ofList (first :: rest))) position)
      | some (operator, rest') => do
          let others ← prefixes table (position + operator.symbol.length) rest'
          return operator :: others
termination_by run.length
decreasing_by exact OperatorTable.length_of_longest? _h

/-- The operators after an operand at the start of a run, and the rest of it with
its position. -/
def suffixes (table : OperatorTable) (position : Nat) (run : List Char) :
    List Operator × Nat × List Char :=
  match _h : table.longest? .after run with
  | none => ([], position, run)
  | some (operator, rest) =>
      let (others, position, rest) :=
        suffixes table (position + operator.symbol.length) rest
      (operator :: others, position, rest)
termination_by run.length
decreasing_by exact OperatorTable.length_of_longest? _h

/-- Puts operators before an operand on the stack. -/
def waitBefore (operators : List Operator) (state : Conversion α) : Conversion α :=
  { state with
    stack := (operators.map Waiting.operator).reverse ++ state.stack
    expecting := true }

/-- Reads a run of operator characters. -/
def readRun (table : OperatorTable) (position : Nat) (run : List Char)
    (state : Conversion α) : Except Fault (Conversion α) :=
  if state.expecting then do
    return waitBefore (← prefixes table position run) state
  else
    let (after, position, rest) := suffixes table position run
    let state := { state with
      output := (after.map PostfixItem.operator).reverse ++ state.output }
    if rest.isEmpty then .ok state
    else match table.longest? .between rest with
      | none => .error (.parse (.unknownOperator (String.ofList rest)) position)
      | some (operator, others) => do
          let before ← prefixes table (position + operator.symbol.length) others
          return waitBefore before (push operator state)

/-! ## Brackets -/

/-- Ends an argument. -/
def readComma (position : Nat) (state : Conversion α) : Except Fault (Conversion α) :=
  if state.expecting then .error (.parse .missingOperand position)
  else match unwind state.output state.stack with
    | none => .error (.parse .unexpectedComma position)
    | some (bracket, output, stack) =>
        match bracket.function with
        | none => .error (.parse .unexpectedComma position)
        | some _ =>
            .ok ⟨output, .bracket { bracket with commas := bracket.commas + 1 } :: stack, true⟩

/-- Ends a group or a call at the token with an index. -/
def readClose (scope : Grammar α) (index position : Nat) (state : Conversion α) :
    Except Fault (Conversion α) :=
  match unwind state.output state.stack with
  | none => .error (.parse .unmatchedClose position)
  | some (bracket, output, stack) =>
      let blank := bracket.index + 1 == index
      match bracket.function with
      | none =>
          if state.expecting then
            .error (.parse (if blank then .emptyBrackets else .missingOperand) position)
          else .ok ⟨output, stack, false⟩
      | some name =>
          if state.expecting && !(blank && bracket.commas == 0) then
            .error (.parse .missingOperand position)
          else
            let count := if blank then 0 else bracket.commas + 1
            if scope.accepts name count then .ok ⟨.call name count :: output, stack, false⟩
            else .error (.parse (.argumentCount name count) bracket.position)

/-! ## Conversion -/

/-- True if a name starts a call. -/
def isCall (scope : Grammar α) (token : Token) (following : Option Token) :
    Except Fault Bool :=
  match following with
  | none => .ok false
  | some next =>
      if next.kind ≠ .opening then .ok false
      else if scope.isFunction token.text then .ok true
      else if next.spaced then .ok false
      else .error (.parse (.unknownFunction token.text) token.position)

/-- Multiplies with the operand before, if there is one and another follows. -/
def joinOperand (scope : Grammar α) (kind : TokenKind) (state : Conversion α) :
    Except Fault (Conversion α) :=
  match kind with
  | .number | .name | .opening =>
      if state.expecting then .ok state else pushProduct scope.table state
  | _ => .ok state

/-- An operand of the output. -/
def putOperand (value : α) (state : Conversion α) : Conversion α :=
  { state with output := .operand value :: state.output, expecting := false }

/-- Puts an open bracket on the stack. -/
def openBracket (position index : Nat) (function : Option String) (state : Conversion α) :
    Conversion α :=
  { state with stack := .bracket ⟨position, index, function, 0⟩ :: state.stack }

/-- Reads tokens, of which the first has an index among all. -/
def convert (scope : Grammar α) (index : Nat) (state : Conversion α) :
    List Token → Except Fault (Conversion α)
  | [] => .ok state
  | token :: rest => do
      let state ← joinOperand scope token.kind state
      match token.kind with
      | .number =>
          convert scope (index + 1) (putOperand (← scope.number token.text) state) rest
      | .name =>
          match rest with
          | [] => return putOperand (← scope.name token.text token.position) state
          | next :: others =>
              if ← isCall scope token (some next) then
                convert scope (index + 2)
                  (openBracket next.position (index + 1) (some token.text) state) others
              else
                let operand ← scope.name token.text token.position
                convert scope (index + 1) (putOperand operand state) (next :: others)
      | .opening =>
          convert scope (index + 1) (openBracket token.position index none state) rest
      | .operators => do
          let state ← readRun scope.table token.position token.text.toList state
          convert scope (index + 1) state rest
      | .comma => do
          convert scope (index + 1) (← readComma token.position state) rest
      | .closing => do
          convert scope (index + 1) (← readClose scope index token.position state) rest

/-- Applies all that still waits. -/
def finish (output : List (PostfixItem α)) : List Waiting → Except Fault (List (PostfixItem α))
  | [] => .ok output.reverse
  | .bracket bracket :: _ => .error (.parse .unmatchedOpen bracket.position)
  | .operator operator :: stack => finish (.operator operator :: output) stack
  | .missingProduct :: stack => finish (.missingProduct :: output) stack

/-- The postfix order of the tokens of a text of a given length. -/
def ofTokens (scope : Grammar α) (tokens : List Token) (length : Nat) :
    Except Fault (List (PostfixItem α)) := do
  let state ← convert scope 0 ⟨[], [], true⟩ tokens
  if state.expecting then .error (.parse .unexpectedEnd length)
  else finish state.output state.stack

end Postfix

end ExactAlgebra
