import ExactAlgebra.Environment
import Mathlib

/-!
# Phrases

A phrase is the tree of a text in the standard notation, with every bracket that the text
has.  A well-formed phrase has no brackets missing: its lexemes, read by precedence, give
the postfix order of the tree.
-/

namespace ExactAlgebra

/-- The tree of a text. -/
inductive Phrase where
  | number (value : Nat)
  | name (text : String)
  | call (function : String) (args : List Phrase)
  | bracket (body : Phrase)
  | before (operator : Operator) (body : Phrase)
  | between (operator : Operator) (a b : Phrase)

/-- Class and text of a token. -/
abbrev Lexeme := TokenKind × String

namespace Phrase

/-! ## Operators -/

def adding : Operator := ⟨"+", .add, 1, .left, .between⟩
def subtracting : Operator := ⟨"-", .subtract, 1, .left, .between⟩
def multiplying : Operator := ⟨"*", .multiply, 2, .left, .between⟩
def dividing : Operator := ⟨"/", .divide, 2, .left, .between⟩
def negation : Operator := ⟨"-", .negate, 3, .right, .before⟩
def raising : Operator := ⟨"^", .pow, 4, .right, .between⟩

/-- The operators between operands that a phrase is written with. -/
def infixes : List Operator := [adding, subtracting, multiplying, dividing, raising]

/-! ## Lexemes and postfix order -/

mutual

/-- The lexemes of a phrase, from left to right. -/
def lexemes : Phrase → List Lexeme
  | number value => [(.number, toString value)]
  | name text => [(.name, text)]
  | call function args =>
      (.name, function) :: (.opening, "(") :: argsLexemes args ++ [(.closing, ")")]
  | bracket body => (.opening, "(") :: body.lexemes ++ [(.closing, ")")]
  | before operator body => (.operators, operator.symbol) :: body.lexemes
  | between operator a b => a.lexemes ++ (.operators, operator.symbol) :: b.lexemes

def argsLexemes : List Phrase → List Lexeme
  | [] => []
  | [arg] => arg.lexemes
  | arg :: args => arg.lexemes ++ (.comma, ",") :: argsLexemes args

end

mutual

/-- The postfix order of a phrase. -/
def items : Phrase → List (PostfixItem Expr)
  | number value => [.operand (.number value)]
  | name text => [.operand (.named text)]
  | call function args => argsItems args ++ [.call function args.length]
  | bracket body => body.items
  | before operator body => body.items ++ [.operator operator]
  | between operator a b => a.items ++ b.items ++ [.operator operator]

def argsItems : List Phrase → List (PostfixItem Expr)
  | [] => []
  | arg :: args => arg.items ++ argsItems args

end

mutual

/-- The value of a phrase in an environment. -/
def value (env : Environment) (read : Reader) : Phrase → Except Fault Expr
  | number value => .ok (.number value)
  | name text => .ok (.named text)
  | call function args => do env.callWith read function (← argsValues env read args)
  | bracket body => body.value env read
  | before operator body => do env.operateWith read operator.operation [← body.value env read]
  | between operator a b => do
      let left ← a.value env read
      let right ← b.value env read
      env.operateWith read operator.operation [left, right]

def argsValues (env : Environment) (read : Reader) : List Phrase → Except Fault (List Expr)
  | [] => .ok []
  | arg :: args => do
      let first ← arg.value env read
      let rest ← argsValues env read args
      return first :: rest

end

/-! ## Well-formed phrases -/

/-- A name that starts with a letter and goes on with letters and digits. -/
def IsName (alphabet : Alphabet) (text : String) : Prop :=
  ∃ first rest, text.toList = first :: rest ∧ Token.isLetter alphabet first = true ∧
    rest.all (Token.continuesName alphabet) = true

instance (alphabet : Alphabet) (text : String) : Decidable (IsName alphabet text) :=
  match h : text.toList with
  | [] => .isFalse fun ⟨_, _, hcons, _⟩ => by cases h.symm.trans hcons
  | first :: rest =>
      decidable_of_iff (Token.isLetter alphabet first = true ∧
          rest.all (Token.continuesName alphabet) = true)
        ⟨fun hname => ⟨first, rest, h, hname⟩, fun ⟨_, _, hcons, hname⟩ => by
          cases h.symm.trans hcons
          exact hname⟩

/-- A phrase whose operators outside of brackets have at least a given precedence.  The flag
allows a sign in front. -/
inductive Formed (env : Environment) : (signed : Bool) → (level : Int) → Phrase → Prop
  | number {signed level} (value : Nat) : Formed env signed level (.number value)
  | name {signed level text} (hname : IsName (env.alphabet env.operators) text)
      (hfree : env.functions.contains text = false) : Formed env signed level (.name text)
  | call {signed level function args} (hname : IsName (env.alphabet env.operators) function)
      (hfunction : env.functions.contains function = true)
      (hcount : env.functions.accepts function args.length = true)
      (hne : args ≠ []) (hargs : ∀ arg ∈ args, Formed env true 1 arg) :
      Formed env signed level (.call function args)
  | bracket {signed level body} (hbody : Formed env true 1 body) :
      Formed env signed level (.bracket body)
  | negate {level body} (hbody : Formed env false 4 body) (hlevel : level ≤ 3) :
      Formed env true level (.before negation body)
  | between {signed level operator a b left right} (hoperator : operator ∈ infixes)
      (ha : Formed env signed left a) (hb : Formed env false right b)
      (hleft : operator.precedence < left ∨
        (operator.precedence = left ∧ operator.associativity = .left))
      (hright : operator.precedence < right) (hlevel : level ≤ operator.precedence) :
      Formed env signed level (.between operator a b)

variable {env : Environment} {read : Reader} {signed : Bool} {level : Int} {e : Phrase}
  {args : List Phrase}

/-- A phrase is well-formed where less is asked of its operators. -/
theorem Formed.mono (h : Formed env signed level e) {level' : Int} (hlevel : level' ≤ level) :
    Formed env signed level' e := by
  cases h with
  | number => exact .number _
  | name hname hfree => exact .name hname hfree
  | call hname hfunction hcount hne hargs => exact .call hname hfunction hcount hne hargs
  | bracket hbody => exact .bracket hbody
  | negate hbody hle => exact .negate hbody (hlevel.trans hle)
  | between hoperator ha hb hleft hright hle =>
      exact .between hoperator ha hb hleft hright (hlevel.trans hle)

theorem Formed.withSign (h : Formed env false level e) : Formed env true level e := by
  generalize hsign : false = sign at h
  induction h with
  | number => exact .number _
  | name hname hfree => exact .name hname hfree
  | call hname hfunction hcount hne hargs => exact .call hname hfunction hcount hne hargs
  | bracket hbody => exact .bracket hbody
  | negate => simp at hsign
  | between hoperator _ hb hleft hright hle ih =>
      exact .between hoperator (ih hsign) hb hleft hright hle

theorem role_of_mem_infixes {operator : Operator} (h : operator ∈ infixes) :
    operator.role = .between := by
  simp only [infixes, List.mem_cons, List.not_mem_nil, or_false] at h
  rcases h with rfl | rfl | rfl | rfl | rfl <;> rfl

/-! ## Evaluation -/

theorem length_argsValues {values : List Expr} (h : argsValues env read args = .ok values) :
    values.length = args.length := by
  induction args generalizing values with
  | nil =>
      cases h
      rfl
  | cons arg args ih =>
      rw [argsValues] at h
      cases hfirst : arg.value env read with
      | error fault => simp [hfirst, bind, Except.bind] at h
      | ok first =>
          cases hrest : argsValues env read args with
          | error fault => simp [hfirst, hrest, bind, Except.bind] at h
          | ok rest =>
              simp only [hfirst, hrest, bind, Except.bind, pure, Except.pure,
                Except.ok.injEq] at h
              rw [← h, List.length_cons, ih hrest, List.length_cons]

theorem evaluateItems_argsItems
    (h : ∀ arg ∈ args, ∀ stack items, env.evaluateItems read stack (arg.items ++ items) =
      arg.value env read >>= fun value => env.evaluateItems read (value :: stack) items)
    (stack : List Expr) (items : List (PostfixItem Expr)) :
    env.evaluateItems read stack (argsItems args ++ items) =
      argsValues env read args >>= fun values =>
        env.evaluateItems read (values.reverse ++ stack) items := by
  induction args generalizing stack with
  | nil => rfl
  | cons arg args ih =>
      obtain ⟨harg, hargs⟩ := List.forall_mem_cons.mp h
      rw [argsItems, argsValues, List.append_assoc, harg]
      cases arg.value env read with
      | error fault => rfl
      | ok first =>
          simp only [bind, Except.bind] at ih ⊢
          rw [ih hargs]
          cases argsValues env read args with
          | error fault => rfl
          | ok rest => simp [pure, Except.pure]

/-- The postfix order of a phrase evaluates to its value. -/
theorem Formed.evaluateItems (h : Formed env signed level e) (stack : List Expr)
    (items : List (PostfixItem Expr)) :
    env.evaluateItems read stack (e.items ++ items) =
      e.value env read >>= fun value => env.evaluateItems read (value :: stack) items := by
  induction h generalizing stack items with
  | number => rfl
  | name => rfl
  | @call _ _ _ args _ _ _ _ _ ih =>
      rw [Phrase.items, Phrase.value, List.append_assoc, evaluateItems_argsItems ih]
      cases hvalues : argsValues env read args with
      | error fault => rfl
      | ok values =>
          have hlength := length_argsValues hvalues
          simp only [bind, Except.bind, List.singleton_append, Environment.evaluateItems,
            ← hlength]
          rw [List.take_left' (by simp), List.drop_left' (by simp), List.reverse_reverse]
  | bracket _ ih => exact ih stack items
  | negate _ _ ih =>
      rw [Phrase.items, Phrase.value, List.append_assoc, ih]
      cases hbody : Phrase.value env read _ with
      | error fault => rfl
      | ok body => rfl
  | @between _ _ operator a b _ _ hoperator _ _ _ _ _ iha ihb =>
      have harity : operator.arity = 2 := by rw [Operator.arity, role_of_mem_infixes hoperator]
      rw [Phrase.items, Phrase.value, List.append_assoc, List.append_assoc, iha]
      cases a.value env read with
      | error fault => rfl
      | ok left =>
          simp only [bind, Except.bind] at ihb ⊢
          rw [ihb]
          cases b.value env read with
          | error fault => rfl
          | ok right =>
              simp only [List.singleton_append, Environment.evaluateItems, harity]
              rfl

end Phrase

end ExactAlgebra
