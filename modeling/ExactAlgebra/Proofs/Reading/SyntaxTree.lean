import ExactAlgebra.Reading.Postfix
import Mathlib

/-!
# Syntax trees

The tokens of a text stand for atoms: operands, brackets, commas and operators.  A syntax tree
groups atoms into operations, of which a product need not be written.  Precedence decides which
trees a notation has: whatever waits at the right end of a left operand is applied before the
operator that follows, and an operator is not applied before those at the left end of its right
operand.
-/

namespace ExactAlgebra

variable {α : Type}

/-! ## Atoms and trees -/

/-- What tokens stand for.  The name of a function comes with the bracket after it. -/
inductive Atom (α : Type) where
  | operand (value : α)
  | call (name : String)
  | opening
  | closing
  | comma
  | operator (operator : Operator)

/-- The structure of a text.  An operator between operands is written or left out. -/
inductive SyntaxTree (α : Type) where
  | operand (value : α)
  | call (name : String) (args : List (SyntaxTree α))
  | bracket (body : SyntaxTree α)
  | before (operator : Operator) (body : SyntaxTree α)
  | after (operator : Operator) (body : SyntaxTree α)
  | between (operator : Operator) (written : Bool) (left right : SyntaxTree α)

namespace SyntaxTree

/-- An operator, if it is written. -/
def mark (operator : Operator) (written : Bool) : List (Atom α) :=
  if written then [.operator operator] else []

mutual

/-- The atoms of a tree, from left to right. -/
def atoms : SyntaxTree α → List (Atom α)
  | operand value => [.operand value]
  | call name args => .call name :: argsAtoms args ++ [.closing]
  | bracket body => .opening :: body.atoms ++ [.closing]
  | before operator body => .operator operator :: body.atoms
  | after operator body => body.atoms ++ [.operator operator]
  | between operator written left right => left.atoms ++ mark operator written ++ right.atoms

def argsAtoms : List (SyntaxTree α) → List (Atom α)
  | [] => []
  | [arg] => arg.atoms
  | arg :: args => arg.atoms ++ .comma :: argsAtoms args

end

mutual

/-- The operands of a tree, each operation after its own. -/
def postorder : SyntaxTree α → List (PostfixItem α)
  | operand value => [.operand value]
  | call name args => argsPostorder args ++ [.call name args.length]
  | bracket body => body.postorder
  | before operator body => body.postorder ++ [.operator operator]
  | after operator body => body.postorder ++ [.operator operator]
  | between operator _ left right => left.postorder ++ right.postorder ++ [.operator operator]

def argsPostorder : List (SyntaxTree α) → List (PostfixItem α)
  | [] => []
  | arg :: args => arg.postorder ++ argsPostorder args

end

/-! ## The edges of a tree -/

/-- The operators that still lack an end of their right operand at the end of a tree, the
innermost first. -/
def waiting : SyntaxTree α → List Operator
  | before operator body => body.waiting ++ [operator]
  | between operator _ _ right => right.waiting ++ [operator]
  | operand _ | call _ _ | bracket _ | after _ _ => []

/-- The postorder of a tree up to the operators that wait at its end. -/
def settled : SyntaxTree α → List (PostfixItem α)
  | before _ body => body.settled
  | between _ _ left right => left.postorder ++ right.settled
  | operand value => [.operand value]
  | call name args => argsPostorder args ++ [.call name args.length]
  | bracket body => body.postorder
  | after operator body => body.postorder ++ [.operator operator]

/-- The operators whose left operand starts a tree, the outermost first. -/
def leading : SyntaxTree α → List Operator
  | between operator _ left _ => operator :: left.leading
  | after _ body => body.leading
  | operand _ | call _ _ | bracket _ | before _ _ => []

/-- True if a tree starts with an operator. -/
def signed : SyntaxTree α → Bool
  | before _ _ => true
  | after _ body => body.signed
  | between _ _ left _ => left.signed
  | operand _ | call _ _ | bracket _ => false

theorem postorder_eq (tree : SyntaxTree α) :
    tree.postorder = tree.settled ++ tree.waiting.map .operator := by
  induction tree using settled.induct with
  | case1 operator body ih => simp [postorder, settled, waiting, ih]
  | case2 operator written left right ih => simp [postorder, settled, waiting, ih]
  | case3 | case4 | case5 | case6 => simp [postorder, settled, waiting]

theorem argsAtoms_cons {args : List (SyntaxTree α)} (h : args ≠ []) (arg : SyntaxTree α) :
    argsAtoms (arg :: args) = arg.atoms ++ .comma :: argsAtoms args := by
  rw [argsAtoms]
  exact h

theorem argsAtoms_append (args : List (SyntaxTree α)) (last : SyntaxTree α) :
    argsAtoms (args ++ [last]) =
      (args.flatMap fun arg => arg.atoms ++ [.comma]) ++ last.atoms := by
  induction args with
  | nil => simp [argsAtoms]
  | cons arg args ih => simp [argsAtoms_cons, ih]

theorem argsPostorder_append (args : List (SyntaxTree α)) (last : SyntaxTree α) :
    argsPostorder (args ++ [last]) = argsPostorder args ++ last.postorder := by
  induction args with
  | nil => simp [argsPostorder]
  | cons arg args ih => simp [argsPostorder, ih]

/-- A tree that starts with no operator starts with an operand or a bracket. -/
theorem exists_atoms_of_signed {tree : SyntaxTree α} (h : tree.signed = false) :
    ∃ first rest, tree.atoms = first :: rest ∧
      ((∃ value, first = .operand value) ∨ (∃ name, first = .call name) ∨ first = .opening) := by
  induction tree using signed.induct with
  | case1 => simp [signed] at h
  | case2 operator body ih =>
      obtain ⟨first, rest, hatoms, hfirst⟩ := ih h
      exact ⟨first, rest ++ [.operator operator], by simp [atoms, hatoms], hfirst⟩
  | case3 operator written left right ih =>
      obtain ⟨first, rest, hatoms, hfirst⟩ := ih h
      exact ⟨first, rest ++ mark operator written ++ right.atoms, by simp [atoms, hatoms], hfirst⟩
  | case4 value => exact ⟨_, [], rfl, .inl ⟨value, rfl⟩⟩
  | case5 name args => exact ⟨_, _, rfl, .inr (.inl ⟨name, rfl⟩)⟩
  | case6 body => exact ⟨_, _, rfl, .inr (.inr rfl)⟩

end SyntaxTree

/-! ## Precedence -/

open SyntaxTree

/-- The trees that the precedence of operators allows, if operands next to each other have a
product. -/
inductive Grouped (scope : Grammar α) (product : Operator) : SyntaxTree α → Prop
  | operand (value : α) : Grouped scope product (.operand value)
  | call {name : String} {args : List (SyntaxTree α)}
      (hcount : scope.accepts name args.length = true)
      (hargs : ∀ arg ∈ args, Grouped scope product arg) : Grouped scope product (.call name args)
  | bracket {body : SyntaxTree α} (hbody : Grouped scope product body) :
      Grouped scope product (.bracket body)
  | before {operator : Operator} {body : SyntaxTree α} (hrole : operator.role = .before)
      (hbody : Grouped scope product body)
      (hleading : ∀ next ∈ body.leading, operator.yieldsTo next = false) :
      Grouped scope product (.before operator body)
  | after {operator : Operator} {body : SyntaxTree α} (hrole : operator.role = .after)
      (hbody : Grouped scope product body) (hwaiting : body.waiting = []) :
      Grouped scope product (.after operator body)
  | between {operator : Operator} {written : Bool} {left right : SyntaxTree α}
      (hrole : operator.role = .between) (hleft : Grouped scope product left)
      (hright : Grouped scope product right)
      (hwaiting : ∀ last ∈ left.waiting, last.yieldsTo operator = true)
      (hleading : ∀ next ∈ right.leading, operator.yieldsTo next = false)
      (hwritten : written = false → operator = product ∧ right.signed = false) :
      Grouped scope product (.between operator written left right)

end ExactAlgebra
