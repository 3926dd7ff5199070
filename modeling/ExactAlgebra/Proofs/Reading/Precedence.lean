import ExactAlgebra.Proofs.Reading.Denoted
import ExactAlgebra.Proofs.Reading.SyntaxTree

/-!
# Reading by precedence

A conversion that reads atoms one by one succeeds exactly on the atoms of the trees that
precedence allows, and puts out their postorder.  Reading the atoms of such a tree leaves the
operators that wait at its end on the stack.  Conversely the stack, the output and the atoms
that are read always consist of complete trees, each followed by the operator or the bracket
that it stands in front of.
-/

namespace ExactAlgebra

open SyntaxTree

namespace Postfix

variable {α : Type} {scope : Grammar α} {product operator next : Operator}
  {s s' : Conversion α} {stack : List Waiting} {output items : List (PostfixItem α)}
  {atoms : List (Atom α)} {atom : Atom α} {tree left : SyntaxTree α} {bracket : Bracket}
  {joined written : Bool}

/-! ## Reading an atom -/

/-- Puts an implicit product on the stack if no operand is expected. -/
def join (product : Operator) (s : Conversion α) : Conversion α :=
  if s.expecting then s else { push product s with expecting := true }

/-- Reads an operator, which has to be of the right kind. -/
def advanceOperator (operator : Operator) (s : Conversion α) : Option (Conversion α) :=
  match operator.role, s.expecting with
  | .before, true => some { s with stack := .operator operator :: s.stack }
  | .after, false => some { s with output := .operator operator :: s.output }
  | .between, false => some { push operator s with expecting := true }
  | _, _ => none

/-- Ends an argument. -/
def advanceComma (s : Conversion α) : Option (Conversion α) :=
  match s.expecting, unwind s.output s.stack with
  | false, some (⟨position, index, some name, commas⟩, output, stack) =>
      some ⟨output, .bracket ⟨position, index, some name, commas + 1⟩ :: stack, true⟩
  | _, _ => none

/-- Applies a function to the operands before. -/
def applyCall (scope : Grammar α) (name : String) (count : Nat)
    (output : List (PostfixItem α)) (stack : List Waiting) : Option (Conversion α) :=
  if scope.accepts name count then some ⟨.call name count :: output, stack, false⟩ else none

/-- Ends a group or a call, which may have no argument. -/
def advanceClosing (scope : Grammar α) (s : Conversion α) : Option (Conversion α) :=
  if s.expecting then
    match s.stack with
    | .bracket ⟨_, _, some name, 0⟩ :: stack => applyCall scope name 0 s.output stack
    | _ => none
  else
    match unwind s.output s.stack with
    | some (⟨_, _, none, _⟩, output, stack) => some ⟨output, stack, false⟩
    | some (⟨_, _, some name, commas⟩, output, stack) =>
        applyCall scope name (commas + 1) output stack
    | none => none

/-- Reads an atom; the places of brackets do not matter. -/
def advance (scope : Grammar α) (product : Operator) (s : Conversion α) :
    Atom α → Option (Conversion α)
  | .operand value => some (putOperand value (join product s))
  | .call name => some (openBracket 0 0 (some name) (join product s))
  | .opening => some (openBracket 0 0 none (join product s))
  | .closing => advanceClosing scope s
  | .comma => advanceComma s
  | .operator operator => advanceOperator operator s

/-! ## Waiting operators -/

/-- True if nothing on the stack is applied before an operator. -/
def Blocks (stack : List Waiting) (next : Operator) : Prop :=
  ∀ top, stack.head? = some (.operator top) → top.yieldsTo next = false

theorem yield_of_blocks (h : Blocks stack next) (output : List (PostfixItem α)) :
    yield next output stack = (output, stack) := by
  fun_cases yield next output stack with
  | case1 top stack hyields => simp [h top rfl] at hyields
  | case2 | case3 => rfl

theorem blocks_operator (h : operator.yieldsTo next = false) :
    Blocks (.operator operator :: stack) next := by
  rintro top htop
  cases htop
  exact h

theorem blocks_bracket : Blocks (.bracket bracket :: stack) next := by simp [Blocks]

theorem blocks_nil : Blocks [] next := by simp [Blocks]

theorem yield_append {operators : List Operator}
    (h : ∀ last ∈ operators, last.yieldsTo next = true) (output : List (PostfixItem α))
    (stack : List Waiting) : yield next output (operators.map .operator ++ stack) =
      yield next ((operators.map .operator).reverse ++ output) stack := by
  induction operators generalizing output with
  | nil => rfl
  | cons first rest ih =>
      obtain ⟨hfirst, hrest⟩ := List.forall_mem_cons.mp h
      rw [List.map_cons, List.cons_append, yield, if_pos hfirst, ih hrest]
      simp

theorem unwind_append (operators : List Operator) (output : List (PostfixItem α)) :
    unwind output (operators.map .operator ++ .bracket bracket :: stack) =
      some (bracket, (operators.map .operator).reverse ++ output, stack) := by
  induction operators generalizing output with
  | nil => rfl
  | cons first rest ih =>
      rw [List.map_cons, List.cons_append, unwind, ih]
      simp

theorem finish_operators (operators : List Operator) (output : List (PostfixItem α)) :
    finish output (operators.map .operator) =
      .ok (output.reverse ++ operators.map .operator) := by
  induction operators generalizing output with
  | nil => simp [finish]
  | cons first rest ih =>
      rw [List.map_cons, finish, ih]
      simp

/-! ## Reading a tree -/

/-- What starts an operand is read after the product that it has with the operand before. -/
theorem foldlM_join (h : tree.signed = false) (s : Conversion α) :
    tree.atoms.foldlM (advance scope product) s =
      tree.atoms.foldlM (advance scope product) (join product s) := by
  obtain ⟨first, rest, hatoms, hfirst⟩ := exists_atoms_of_signed h
  have hjoin : join product (join product s) = join product s := by
    cases hs : s.expecting <;> simp [join, hs]
  rw [hatoms, List.foldlM_cons, List.foldlM_cons]
  rcases hfirst with ⟨value, rfl⟩ | ⟨name, rfl⟩ | rfl <;> simp [advance, hjoin]

/-- The state after a tree: the operators at its end wait on the stack. -/
def Reads (scope : Grammar α) (product : Operator) (tree : SyntaxTree α) : Prop :=
  ∀ (output : List (PostfixItem α)) (stack : List Waiting),
    (∀ next ∈ tree.leading, Blocks stack next) →
    tree.atoms.foldlM (advance scope product) ⟨output, stack, true⟩ =
      some ⟨tree.settled.reverse ++ output, tree.waiting.map .operator ++ stack, false⟩

theorem reverse_postorder (tree : SyntaxTree α) :
    tree.postorder.reverse =
      (tree.waiting.map PostfixItem.operator).reverse ++ tree.settled.reverse := by
  rw [postorder_eq, List.reverse_append]

/-- A bracket right below a tree is reached when all of the tree has been put out. -/
theorem unwind_tree (tree : SyntaxTree α) (output : List (PostfixItem α)) :
    unwind (tree.settled.reverse ++ output)
        (tree.waiting.map .operator ++ .bracket bracket :: stack) =
      some (bracket, tree.postorder.reverse ++ output, stack) := by
  rw [unwind_append, ← List.append_assoc, ← reverse_postorder]

/-- An operator that a tree is followed by applies what waits at the end of the tree. -/
theorem push_tree (hwaiting : ∀ last ∈ tree.waiting, last.yieldsTo next = true)
    (hblocks : Blocks stack next) (output : List (PostfixItem α)) :
    push next ⟨tree.settled.reverse ++ output, tree.waiting.map .operator ++ stack, false⟩ =
      ⟨tree.postorder.reverse ++ output, .operator next :: stack, false⟩ := by
  rw [push, yield_append hwaiting, yield_of_blocks hblocks, ← List.append_assoc,
    ← reverse_postorder]

theorem reads_between {right : SyntaxTree α} (hrole : operator.role = .between)
    (hleft : Reads scope product left) (hright : Reads scope product right)
    (hwaiting : ∀ last ∈ left.waiting, last.yieldsTo operator = true)
    (hleading : ∀ next ∈ right.leading, operator.yieldsTo next = false)
    (hwritten : written = false → operator = product ∧ right.signed = false) :
    Reads scope product (.between operator written left right) := by
  intro output stack hblocks
  obtain ⟨hoperator, hblocks⟩ := List.forall_mem_cons.mp hblocks
  have hpush := push_tree hwaiting hoperator output
  have hlast := hright (left.postorder.reverse ++ output) (.operator operator :: stack)
    fun next hnext => blocks_operator (hleading next hnext)
  have hmark : (mark operator written ++ right.atoms).foldlM (advance scope product)
      ⟨left.settled.reverse ++ output, left.waiting.map Waiting.operator ++ stack, false⟩ =
        right.atoms.foldlM (advance scope product)
          ⟨left.postorder.reverse ++ output, .operator operator :: stack, true⟩ := by
    cases written with
    | true => simp [mark, advance, advanceOperator, hrole, hpush]
    | false =>
        obtain ⟨rfl, hsigned⟩ := hwritten rfl
        rw [mark, if_neg Bool.false_ne_true, List.nil_append, foldlM_join hsigned, join,
          if_neg Bool.false_ne_true, hpush]
  rw [SyntaxTree.atoms, List.append_assoc, List.foldlM_append, hleft output stack hblocks]
  refine hmark.trans (hlast.trans ?_)
  simp [settled, waiting]

/-- The arguments of a call up to the last. -/
theorem foldlM_args {args : List (SyntaxTree α)} (hargs : ∀ arg ∈ args, Reads scope product arg)
    (output : List (PostfixItem α)) (stack : List Waiting) (position index : Nat) (name : String)
    (commas : Nat) :
    (args.flatMap fun arg => arg.atoms ++ [Atom.comma]).foldlM (advance scope product)
        ⟨output, .bracket ⟨position, index, some name, commas⟩ :: stack, true⟩ =
      some ⟨(argsPostorder args).reverse ++ output,
        .bracket ⟨position, index, some name, commas + args.length⟩ :: stack, true⟩ := by
  induction args generalizing output commas with
  | nil => rfl
  | cons arg args ih =>
      obtain ⟨harg, hargs⟩ := List.forall_mem_cons.mp hargs
      have hfirst := harg output (.bracket ⟨position, index, some name, commas⟩ :: stack)
        fun _ _ => blocks_bracket
      have hcomma : advanceComma ⟨arg.settled.reverse ++ output, arg.waiting.map .operator ++
          .bracket ⟨position, index, some name, commas⟩ :: stack, false⟩ =
            some ⟨arg.postorder.reverse ++ output,
              .bracket ⟨position, index, some name, commas + 1⟩ :: stack, true⟩ := by
        simp only [advanceComma, unwind_tree]
      have hrest := ih hargs (arg.postorder.reverse ++ output) (commas + 1)
      rw [List.flatMap_cons, List.append_assoc, List.foldlM_append, hfirst]
      simp only [Option.bind_eq_bind, Option.bind_some, List.singleton_append, List.foldlM_cons,
        advance, hcomma, hrest, argsPostorder, List.reverse_append, List.append_assoc,
        List.length_cons]
      rw [show commas + 1 + args.length = commas + (args.length + 1) by omega]

theorem reads_call {name : String} {args : List (SyntaxTree α)}
    (hcount : scope.accepts name args.length = true)
    (hargs : ∀ arg ∈ args, Reads scope product arg) : Reads scope product (.call name args) := by
  intro output stack _
  rw [SyntaxTree.atoms, List.cons_append, List.foldlM_cons]
  change (argsAtoms args ++ [Atom.closing]).foldlM (advance scope product)
    ⟨output, .bracket ⟨0, 0, some name, 0⟩ :: stack, true⟩ = _
  cases args using List.reverseRecOn with
  | nil =>
      have hcount : scope.accepts name 0 = true := hcount
      simp [argsAtoms, advance, advanceClosing, applyCall, hcount, settled, waiting, argsPostorder]
  | append_singleton args last =>
      obtain ⟨hargs, hlast⟩ := List.forall_mem_append.mp hargs
      rw [List.length_append, List.length_singleton] at hcount
      have hfirst := foldlM_args hargs output stack 0 0 name 0
      rw [Nat.zero_add] at hfirst
      have hsecond := hlast last (by simp) ((argsPostorder args).reverse ++ output)
        (.bracket ⟨0, 0, some name, args.length⟩ :: stack) fun _ _ => blocks_bracket
      rw [argsAtoms_append, List.append_assoc, List.foldlM_append, hfirst, Option.bind_eq_bind,
        Option.bind_some, List.foldlM_append, hsecond]
      simp only [Option.bind_eq_bind, Option.bind_some, List.foldlM_cons, List.foldlM_nil, advance,
        advanceClosing, Bool.false_eq_true, if_false, unwind_tree, applyCall, hcount, if_true]
      simp [settled, waiting, argsPostorder_append]

/-- Reading the atoms of a tree that precedence allows. -/
theorem reads (h : Grouped scope product tree) :
    Reads scope product tree := by
  induction h with
  | operand value => exact fun output stack _ => rfl
  | call hcount _ ih => exact reads_call hcount ih
  | @bracket body _ ih =>
      intro output stack _
      have hbody := ih output (.bracket ⟨0, 0, none, 0⟩ :: stack) fun _ _ => blocks_bracket
      rw [SyntaxTree.atoms, List.cons_append, List.foldlM_cons]
      change (body.atoms ++ [Atom.closing]).foldlM (advance scope product)
        ⟨output, .bracket ⟨0, 0, none, 0⟩ :: stack, true⟩ = _
      rw [List.foldlM_append, hbody]
      simp [advance, advanceClosing, unwind_tree, settled, waiting]
  | @before operator body hrole _ hleading ih =>
      intro output stack _
      have hbody := ih output (.operator operator :: stack) fun next hnext =>
        blocks_operator (hleading next hnext)
      simp [SyntaxTree.atoms, advance, advanceOperator, hrole, hbody, settled, waiting]
  | @after operator body hrole _ hwaiting ih =>
      intro output stack hblocks
      have hbody := ih output stack hblocks
      simp [SyntaxTree.atoms, advance, advanceOperator, hrole, hbody, settled, waiting, hwaiting,
        postorder_eq body]
  | between hrole _ _ hwaiting hleading hwritten ihleft ihright =>
      exact reads_between hrole ihleft ihright hwaiting hleading hwritten

/-! ## States between trees -/

/-- A tree that may stand on a stack: nothing there is applied before the operators at the left
end of the tree, and after an implicit product it starts with an operand. -/
def Fits (joined : Bool) (stack : List Waiting) (tree : SyntaxTree α) : Prop :=
  (joined = true → tree.signed = false) ∧ ∀ next ∈ tree.leading, Blocks stack next

/-- What has been read when an operand is expected: `joined` says that it follows an implicit
product. -/
inductive Awaits (scope : Grammar α) (product : Operator) :
    (joined : Bool) → List Waiting → List (PostfixItem α) → List (Atom α) → Prop
  | start : Awaits scope product false [] [] []
  | before {stack : List Waiting} {output : List (PostfixItem α)} {atoms : List (Atom α)}
      {operator : Operator} (h : Awaits scope product false stack output atoms)
      (hrole : operator.role = .before) :
      Awaits scope product false (.operator operator :: stack) output
        (atoms ++ [.operator operator])
  | between {stack : List Waiting} {output : List (PostfixItem α)} {atoms : List (Atom α)}
      {joined : Bool} {operator : Operator} {left : SyntaxTree α} (written : Bool)
      (h : Awaits scope product joined stack output atoms)
      (hleft : Grouped scope product left) (hfits : Fits joined stack left)
      (hwaiting : ∀ last ∈ left.waiting, last.yieldsTo operator = true)
      (hblocks : Blocks stack operator) (hrole : operator.role = .between)
      (hwritten : written = false → operator = product) :
      Awaits scope product (!written) (.operator operator :: stack)
        (left.postorder.reverse ++ output) (atoms ++ left.atoms ++ mark operator written)
  | group {stack : List Waiting} {output : List (PostfixItem α)} {atoms : List (Atom α)}
      {joined : Bool} {bracket : Bracket} (h : Awaits scope product joined stack output atoms)
      (hfunction : bracket.function = none) :
      Awaits scope product false (.bracket bracket :: stack) output (atoms ++ [.opening])
  | call {stack : List Waiting} {output : List (PostfixItem α)} {atoms : List (Atom α)}
      {joined : Bool} {bracket : Bracket} {name : String} {args : List (SyntaxTree α)}
      (h : Awaits scope product joined stack output atoms)
      (hfunction : bracket.function = some name) (hcommas : bracket.commas = args.length)
      (hargs : ∀ arg ∈ args, Grouped scope product arg) :
      Awaits scope product false (.bracket bracket :: stack)
        ((argsPostorder args).reverse ++ output)
        (atoms ++ .call name :: args.flatMap fun arg => arg.atoms ++ [.comma])

/-- What has been read ends with a tree, which has been put out. -/
def Stands (scope : Grammar α) (product : Operator) (stack : List Waiting)
    (output : List (PostfixItem α)) (atoms : List (Atom α)) (tree : SyntaxTree α) : Prop :=
  ∃ joined output' atoms', Awaits scope product joined stack output' atoms' ∧
    Grouped scope product tree ∧ Fits joined stack tree ∧
    output = tree.postorder.reverse ++ output' ∧ atoms = atoms' ++ tree.atoms

/-- The tree at the end becomes an operand of the operator that waits for it. -/
theorem Stands.reduce
    (h : Stands scope product (.operator operator :: stack) output atoms tree) :
    ∃ tree', Stands scope product stack (.operator operator :: output) atoms tree' ∧
      tree'.waiting = tree.waiting ++ [operator] := by
  obtain ⟨joined, output, atoms, hawaits, hgrouped, ⟨hsigned, hleading⟩, rfl, rfl⟩ := h
  have hyields : ∀ next ∈ tree.leading, operator.yieldsTo next = false :=
    fun next hnext => hleading next hnext operator rfl
  cases hawaits with
  | before hawaits hrole =>
      exact ⟨.before operator tree, ⟨false, _, _, hawaits, .before hrole hgrouped hyields,
        ⟨by simp, by simp [leading]⟩, by simp [postorder], by simp [SyntaxTree.atoms]⟩, rfl⟩
  | between written hawaits hleft hfits hwaiting hblocks hrole hwritten =>
      refine ⟨.between operator written _ tree, ⟨_, _, _, hawaits,
        .between hrole hleft hgrouped hwaiting hyields
          fun h => ⟨hwritten h, hsigned (by simp [h])⟩,
        ⟨hfits.1, ?_⟩, by simp [postorder], by simp [SyntaxTree.atoms]⟩, rfl⟩
      exact List.forall_mem_cons.mpr ⟨hblocks, hfits.2⟩

/-- Before an operator is put on the stack, what it does not bind tighter than is applied. -/
theorem Stands.yield (next : Operator) (h : Stands scope product stack output atoms tree)
    (hwaiting : ∀ last ∈ tree.waiting, last.yieldsTo next = true) :
    ∃ tree', Stands scope product (Postfix.yield next output stack).2
        (Postfix.yield next output stack).1 atoms tree' ∧
      (∀ last ∈ tree'.waiting, last.yieldsTo next = true) ∧
      Blocks (Postfix.yield next output stack).2 next := by
  fun_induction Postfix.yield next output stack generalizing tree with
  | case1 output top stack hyields ih =>
      obtain ⟨tree', htree', heq⟩ := h.reduce
      refine ih htree' ?_
      rw [heq]
      exact List.forall_mem_append.mpr ⟨hwaiting, by simpa using hyields⟩
  | case2 output top stack hyields =>
      exact ⟨tree, h, hwaiting, blocks_operator (by simpa using hyields)⟩
  | case3 output stack hstack =>
      refine ⟨tree, h, hwaiting, fun top htop => ?_⟩
      cases stack with
      | nil => cases htop
      | cons first rest =>
          cases htop
          exact (hstack top rest rfl).elim

/-- Above the innermost bracket everything belongs to one tree. -/
theorem Stands.unwind {output' : List (PostfixItem α)} {stack' : List Waiting}
    (h : Stands scope product stack output atoms tree)
    (hunwind : Postfix.unwind output stack = some (bracket, output', stack')) :
    ∃ tree', Stands scope product (.bracket bracket :: stack') output' atoms tree' := by
  fun_induction Postfix.unwind output stack generalizing tree with
  | case1 => cases hunwind
  | case2 =>
      cases hunwind
      exact ⟨tree, h⟩
  | case3 output top stack ih =>
      obtain ⟨tree', htree', -⟩ := h.reduce
      exact ih htree' hunwind
  | case4 =>
      obtain ⟨joined, output', atoms', hawaits, -⟩ := h
      cases hawaits

/-- At the end everything belongs to one tree. -/
theorem Stands.finish (h : Stands scope product stack output atoms tree)
    (hfinish : Postfix.finish output stack = .ok items) :
    ∃ tree', Grouped scope product tree' ∧ tree'.atoms = atoms ∧ tree'.postorder = items := by
  fun_induction Postfix.finish output stack generalizing tree with
  | case1 output =>
      obtain ⟨joined, output', atoms', hawaits, hgrouped, -, rfl, rfl⟩ := h
      cases hawaits
      cases hfinish
      exact ⟨tree, hgrouped, rfl, by simp⟩
  | case2 => cases hfinish
  | case3 output top stack ih =>
      obtain ⟨tree', htree', -⟩ := h.reduce
      exact ih htree' hfinish
  | case4 =>
      obtain ⟨joined, output', atoms', hawaits, -⟩ := h
      cases hawaits

/-- A state between two atoms. -/
inductive Represents (scope : Grammar α) (product : Operator) :
    Conversion α → List (Atom α) → Prop
  | awaits {stack : List Waiting} {output : List (PostfixItem α)} {atoms : List (Atom α)}
      (h : Awaits scope product false stack output atoms) :
      Represents scope product ⟨output, stack, true⟩ atoms
  | stands {stack : List Waiting} {output : List (PostfixItem α)} {atoms : List (Atom α)}
      {tree : SyntaxTree α} (h : Stands scope product stack output atoms tree)
      (hwaiting : tree.waiting = []) : Represents scope product ⟨output, stack, false⟩ atoms

/-- A tree before an operator is the left operand of it. -/
theorem Stands.push (written : Bool) (h : Stands scope product stack output atoms tree)
    (hwaiting : tree.waiting = []) (hrole : operator.role = .between)
    (hwritten : written = false → operator = product) :
    Awaits scope product (!written) (Postfix.push operator ⟨output, stack, false⟩).stack
      (Postfix.push operator ⟨output, stack, false⟩).output (atoms ++ mark operator written) := by
  obtain ⟨tree', ⟨joined, output', atoms', hawaits, hgrouped, hfits, houtput, rfl⟩, hwaiting',
    hblocks⟩ := h.yield operator (by simp [hwaiting])
  have hbetween := Awaits.between written hawaits hgrouped hfits hwaiting' hblocks hrole hwritten
  rw [← houtput] at hbetween
  exact hbetween

/-- An operand follows an operator, which may be an implicit product. -/
theorem Represents.join (h : Represents scope product s atoms)
    (hproduct : product.role = .between) :
    ∃ joined, Awaits scope product joined (Postfix.join product s).stack
        (Postfix.join product s).output atoms ∧ (Postfix.join product s).expecting = true := by
  cases h with
  | awaits h => exact ⟨false, h, rfl⟩
  | stands h hwaiting =>
      have hpush := h.push false hwaiting hproduct fun _ => rfl
      rw [mark, if_neg Bool.false_ne_true, List.append_nil] at hpush
      exact ⟨true, hpush, rfl⟩

/-- A tree without operators at its edges fits everywhere. -/
theorem Awaits.stands (h : Awaits scope product joined stack output atoms)
    (hgrouped : Grouped scope product tree) (hsigned : tree.signed = false)
    (hleading : tree.leading = []) :
    Stands scope product stack (tree.postorder.reverse ++ output) (atoms ++ tree.atoms) tree :=
  ⟨joined, output, atoms, h, hgrouped, ⟨fun _ => hsigned, by simp [hleading]⟩, rfl, rfl⟩

theorem represents_operator (h : Represents scope product s atoms)
    (hs : advanceOperator operator s = some s') :
    Represents scope product s' (atoms ++ [.operator operator]) := by
  unfold advanceOperator at hs
  cases h with
  | awaits h =>
      split at hs <;> cases hs
      next hrole _ => exact .awaits (h.before hrole)
      all_goals contradiction
  | stands h hwaiting =>
      split at hs <;> cases hs
      · contradiction
      next hrole _ =>
        obtain ⟨joined, output', atoms', hawaits, hgrouped, hfits, rfl, rfl⟩ := h
        rw [List.append_assoc]
        exact .stands ⟨joined, _, _, hawaits, .after hrole hgrouped hwaiting, hfits,
          by simp [postorder], by rw [SyntaxTree.atoms]⟩ rfl
      next hrole _ =>
        have hpush := h.push true hwaiting hrole (by simp)
        exact .awaits hpush

/-- An open group holds no operand yet. -/
theorem Awaits.group_inv (h : Awaits scope product joined (.bracket bracket :: stack) output atoms)
    (hfunction : bracket.function = none) :
    ∃ joined atoms', Awaits scope product joined stack output atoms' ∧
      atoms = atoms' ++ [.opening] := by
  cases h with
  | group h _ => exact ⟨_, _, h, rfl⟩
  | call _ hname => simp [hname] at hfunction

/-- An open call holds the arguments before the current one. -/
theorem Awaits.call_inv {name : String}
    (h : Awaits scope product joined (.bracket bracket :: stack) output atoms)
    (hfunction : bracket.function = some name) :
    ∃ joined output' atoms' args, Awaits scope product joined stack output' atoms' ∧
      bracket.commas = args.length ∧ (∀ arg ∈ args, Grouped scope product arg) ∧
      output = (argsPostorder args).reverse ++ output' ∧
      atoms = atoms' ++ .call name :: args.flatMap fun arg => arg.atoms ++ [.comma] := by
  cases h with
  | group _ hnone => simp [hnone] at hfunction
  | call h hname hcommas hargs =>
      obtain rfl := Option.some.inj (hname.symm.trans hfunction)
      exact ⟨_, _, _, _, h, hcommas, hargs, rfl, rfl⟩

theorem represents_comma (h : Represents scope product s atoms)
    (hs : advanceComma s = some s') : Represents scope product s' (atoms ++ [.comma]) := by
  unfold advanceComma at hs
  cases h with
  | awaits h => simp at hs
  | stands h hwaiting =>
      split at hs
      next position index name commas output stack _ hunwind =>
        cases hs
        obtain ⟨tree, joined, output', atoms', hopen, hgrouped, -, rfl, rfl⟩ := h.unwind hunwind
        obtain ⟨joined, output, atoms, args, hawaits, hcommas, hargs, rfl, rfl⟩ :=
          hopen.call_inv rfl
        have hall : ∀ arg ∈ args ++ [tree], Grouped scope product arg :=
          List.forall_mem_append.mpr ⟨hargs, by simpa using hgrouped⟩
        have hcount : (⟨position, index, some name, commas + 1⟩ : Bracket).commas =
            (args ++ [tree]).length := by
          simpa using hcommas
        have hcall := hawaits.call rfl hcount hall
        rw [argsPostorder_append] at hcall
        exact .awaits (by simpa using hcall)
      next => cases hs

/-- A call stands for itself. -/
theorem Awaits.applyCall {name : String} (args : List (SyntaxTree α))
    (h : Awaits scope product joined stack output atoms)
    (hargs : ∀ arg ∈ args, Grouped scope product arg)
    (hs : Postfix.applyCall scope name args.length ((argsPostorder args).reverse ++ output) stack =
      some s') :
    Represents scope product s' (atoms ++ .call name :: argsAtoms args ++ [.closing]) := by
  unfold Postfix.applyCall at hs
  split_ifs at hs with hcount
  cases hs
  have hstands : Stands scope product stack
      (.call name args.length :: ((argsPostorder args).reverse ++ output))
      (atoms ++ .call name :: argsAtoms args ++ [.closing]) (.call name args) := by
    simpa [postorder, SyntaxTree.atoms] using h.stands (.call hcount hargs) rfl rfl
  exact .stands hstands rfl

theorem represents_closing (h : Represents scope product s atoms)
    (hs : advanceClosing scope s = some s') :
    Represents scope product s' (atoms ++ [.closing]) := by
  unfold advanceClosing at hs
  cases h with
  | awaits h =>
      rw [if_pos rfl] at hs
      split at hs
      next hstack =>
        dsimp only at hstack
        subst hstack
        obtain ⟨joined, output, atoms, args, hawaits, hcommas, -, rfl, rfl⟩ := h.call_inv rfl
        obtain rfl := List.eq_nil_of_length_eq_zero hcommas.symm
        exact hawaits.applyCall [] (by simp) hs
      next => cases hs
  | stands h hwaiting =>
      rw [if_neg Bool.false_ne_true] at hs
      split at hs
      next hunwind =>
        obtain ⟨tree, joined, output, atoms, hopen, hgrouped, -, rfl, rfl⟩ := h.unwind hunwind
        obtain ⟨joined, atoms, hawaits, rfl⟩ := hopen.group_inv rfl
        cases hs
        have hstands := hawaits.stands (.bracket hgrouped) rfl rfl
        rw [List.append_assoc, List.append_assoc]
        exact .stands hstands rfl
      next name commas _ _ hunwind =>
        obtain ⟨tree, joined, output, atoms, hopen, hgrouped, -, rfl, rfl⟩ := h.unwind hunwind
        obtain ⟨joined, output, atoms, args, hawaits, hcommas, hargs, rfl, rfl⟩ :=
          hopen.call_inv rfl
        obtain rfl : commas = args.length := hcommas
        have hall : ∀ arg ∈ args ++ [tree], Grouped scope product arg :=
          List.forall_mem_append.mpr ⟨hargs, by simpa using hgrouped⟩
        have hcall := hawaits.applyCall (args ++ [tree]) hall
          (by simpa [argsPostorder_append] using hs)
        simpa [argsAtoms_append] using hcall
      next => cases hs

/-- Reading an atom keeps what a state represents. -/
theorem Represents.advance (h : Represents scope product s atoms)
    (hproduct : product.role = .between) (hs : Postfix.advance scope product s atom = some s') :
    Represents scope product s' (atoms ++ [atom]) := by
  cases atom with
  | operand value =>
      obtain ⟨joined, hawaits, hexpecting⟩ := h.join hproduct
      cases hs
      exact .stands (hawaits.stands (.operand value) rfl rfl) rfl
  | call name =>
      obtain ⟨joined, hawaits, hexpecting⟩ := h.join hproduct
      cases hs
      have hnone : ∀ arg ∈ ([] : List (SyntaxTree α)), Grouped scope product arg := nofun
      rw [openBracket, hexpecting]
      exact .awaits (hawaits.call rfl rfl hnone)
  | opening =>
      obtain ⟨joined, hawaits, hexpecting⟩ := h.join hproduct
      cases hs
      rw [openBracket, hexpecting]
      exact .awaits (hawaits.group rfl)
  | closing => exact represents_closing h hs
  | comma => exact represents_comma h hs
  | operator operator => exact represents_operator h hs

theorem Represents.foldlM {more : List (Atom α)} (h : Represents scope product s atoms)
    (hproduct : product.role = .between)
    (hs : more.foldlM (Postfix.advance scope product) s = some s') :
    Represents scope product s' (atoms ++ more) := by
  induction more generalizing s atoms with
  | nil =>
      cases hs
      simpa using h
  | cons atom more ih =>
      rw [List.foldlM_cons] at hs
      obtain ⟨next, hnext, hs⟩ := Option.bind_eq_some_iff.mp hs
      simpa using ih (h.advance hproduct hnext) hs

/-- The atoms that are read to the end are those of the trees that precedence allows, and the
output is the postorder of the tree. -/
theorem exists_foldlM_iff (hproduct : product.role = .between) :
    (∃ s, atoms.foldlM (advance scope product) ⟨[], [], true⟩ = some s ∧ s.expecting = false ∧
        finish s.output s.stack = .ok items) ↔
      ∃ tree, Grouped scope product tree ∧ tree.atoms = atoms ∧ tree.postorder = items := by
  constructor
  · rintro ⟨s, hs, hexpecting, hfinish⟩
    have hstart : Represents scope product ⟨[], [], true⟩ [] := .awaits .start
    cases hstart.foldlM hproduct hs with
    | awaits => cases hexpecting
    | stands h => simpa using h.finish hfinish
  · rintro ⟨tree, hgrouped, rfl, rfl⟩
    refine ⟨_, reads hgrouped [] [] fun _ _ => blocks_nil, rfl, ?_⟩
    rw [List.append_nil, List.append_nil, finish_operators, List.reverse_reverse, postorder_eq]

end Postfix

end ExactAlgebra
