import ExactAlgebra.Proofs.Reading.Numerals

/-!
# Replaying postfix order

The postfix order of a text can be replayed on a stack: every operation finds its operands, and
one value is left.  The operands are those of the text, in their order.  The operators are those
that its runs of operator characters are split into, and a product for each two operands that
stand next to each other.
-/

namespace ExactAlgebra

open Postfix SyntaxTree

variable {α : Type}

/-! ## What items and atoms hold -/

namespace PostfixItem

/-- The number of values that an item takes from the stack. -/
def arity : PostfixItem α → Nat
  | operator o => o.arity
  | call _ count => count
  | operand _ | missingProduct => 0

def operand? : PostfixItem α → Option α
  | operand value => some value
  | operator _ | call _ _ | missingProduct => none

def operator? : PostfixItem α → Option Operator
  | operator o => some o
  | operand _ | call _ _ | missingProduct => none

end PostfixItem

namespace Atom

def operand? : Atom α → Option α
  | operand value => some value
  | call _ | opening | closing | comma | operator _ => none

def operator? : Atom α → Option Operator
  | operator o => some o
  | operand _ | call _ | opening | closing | comma => none

/-- True if an operand starts with the atom. -/
def starts : Atom α → Bool
  | operand _ | call _ | opening => true
  | closing | comma | operator _ => false

/-- True if an operand ends with the atom. -/
def ends : Atom α → Bool
  | operand _ | closing => true
  | operator o => o.role == .after
  | call _ | opening | comma => false

end Atom

/-- The number of operands that start right after another, given whether an operand ends before
all. -/
def implicitProducts : (ended : Bool) → List (Atom α) → Nat
  | _, [] => 0
  | ended, atom :: atoms =>
      (if ended && atom.starts then 1 else 0) + implicitProducts atom.ends atoms

/-! ## Replaying -/

/-- The number of values after a replay that starts with some; none if an operation lacks
operands. -/
def Postfix.depthAfter : (depth : Nat) → List (PostfixItem α) → Option Nat
  | depth, [] => some depth
  | depth, .operand _ :: items => depthAfter (depth + 1) items
  | depth, .operator operator :: items =>
      if operator.arity ≤ depth then depthAfter (depth - operator.arity + 1) items else none
  | depth, .call _ count :: items =>
      if count ≤ depth then depthAfter (depth - count + 1) items else none
  | _, .missingProduct :: _ => none

namespace Environment

variable {env : Environment} {read : Reader} {stack stack' : List Expr} {depth : Nat}
  {items before after : List (PostfixItem Expr)} {item : PostfixItem Expr}

/-- The stack of `evaluateItems` after some items. -/
def replay (env : Environment) (read : Reader) (stack : List Expr) :
    List (PostfixItem Expr) → Except Fault (List Expr)
  | [] => .ok stack
  | .operand value :: items => env.replay read (value :: stack) items
  | .operator operator :: items => do
      let operands := (stack.take operator.arity).reverse
      let value ← env.operateWith read operator.operation operands
      env.replay read (value :: stack.drop operator.arity) items
  | .call name count :: items => do
      let value ← env.callWith read name (stack.take count).reverse
      env.replay read (value :: stack.drop count) items
  | .missingProduct :: _ => .error .noProduct

theorem evaluateItems_append (env : Environment) (read : Reader) (stack : List Expr)
    (before after : List (PostfixItem Expr)) :
    env.evaluateItems read stack (before ++ after) =
      env.replay read stack before >>= fun stack' => env.evaluateItems read stack' after := by
  induction before generalizing stack with
  | nil => rfl
  | cons item before ih =>
      cases item with
      | operand value => exact ih (value :: stack)
      | operator operator =>
          rw [List.cons_append, evaluateItems, replay, bind_assoc]
          exact bind_congr fun value => ih _
      | call name count =>
          rw [List.cons_append, evaluateItems, replay, bind_assoc]
          exact bind_congr fun value => ih _
      | missingProduct => rfl

/-- A replay has the depth that is counted, and finds the operands of the item after it. -/
theorem length_replay (hdepth : depthAfter stack.length (before ++ after) = some depth)
    (hreplay : env.replay read stack before = .ok stack') :
    depthAfter stack'.length after = some depth := by
  induction before generalizing stack with
  | nil =>
      cases hreplay
      exact hdepth
  | cons item before ih =>
      cases item with
      | operand value => exact ih hdepth hreplay
      | operator operator =>
          rw [List.cons_append, depthAfter] at hdepth
          split_ifs at hdepth with hle
          obtain ⟨value, -, hreplay⟩ := exists_of_bind hreplay
          exact ih (by simpa using hdepth) hreplay
      | call name count =>
          rw [List.cons_append, depthAfter] at hdepth
          split_ifs at hdepth with hle
          obtain ⟨value, -, hreplay⟩ := exists_of_bind hreplay
          exact ih (by simpa using hdepth) hreplay
      | missingProduct => cases hreplay

theorem arity_le_of_replay
    (hdepth : depthAfter stack.length (before ++ item :: after) = some depth)
    (hreplay : env.replay read stack before = .ok stack') : item.arity ≤ stack'.length := by
  have hitem := length_replay hdepth hreplay
  cases item with
  | operand | missingProduct => exact Nat.zero_le _
  | operator | call =>
      rw [depthAfter] at hitem
      split_ifs at hitem with hle
      exact hle

end Environment

/-! ## Trees -/

variable {scope : Grammar α} {product : Operator} {tree : SyntaxTree α}
  {args : List (SyntaxTree α)}

theorem depthAfter_args {args : List (SyntaxTree α)}
    (h : ∀ arg ∈ args, ∀ depth items,
      depthAfter depth (arg.postorder ++ items) = depthAfter (depth + 1) items)
    (depth : Nat) (items : List (PostfixItem α)) :
    depthAfter depth (argsPostorder args ++ items) = depthAfter (depth + args.length) items := by
  induction args generalizing depth with
  | nil => rfl
  | cons arg args ih =>
      obtain ⟨harg, hargs⟩ := List.forall_mem_cons.mp h
      rw [argsPostorder, List.append_assoc, harg, ih hargs, List.length_cons]
      congr 1
      omega

/-- The postorder of a tree adds one value. -/
theorem Grouped.depthAfter_postorder (h : Grouped scope product tree) (depth : Nat)
    (items : List (PostfixItem α)) :
    depthAfter depth (tree.postorder ++ items) = depthAfter (depth + 1) items := by
  induction h generalizing depth items with
  | operand value => rfl
  | call _ _ ih => simp [postorder, depthAfter_args ih, depthAfter]
  | bracket _ ih => exact ih depth items
  | before hrole _ _ ih | after hrole _ _ ih =>
      simp [postorder, ih, depthAfter, Operator.arity, hrole]
  | between hrole _ _ _ _ _ ihleft ihright =>
      simp [postorder, ihleft, ihright, depthAfter, Operator.arity, hrole]

theorem operands_args
    (h : ∀ arg ∈ args, arg.postorder.filterMap PostfixItem.operand? =
      arg.atoms.filterMap Atom.operand?) :
    (argsPostorder args).filterMap PostfixItem.operand? =
      (argsAtoms args).filterMap Atom.operand? := by
  induction args with
  | nil => rfl
  | cons arg args ih =>
      obtain ⟨harg, hargs⟩ := List.forall_mem_cons.mp h
      cases args with
      | nil => simpa [argsPostorder, argsAtoms] using harg
      | cons next others =>
          rw [argsPostorder, argsAtoms]
          · simp [harg, ih hargs, Atom.operand?, List.filterMap_cons]
          · simp

/-- The operands of a tree stay in their order. -/
theorem Grouped.operands (h : Grouped scope product tree) :
    tree.postorder.filterMap PostfixItem.operand? = tree.atoms.filterMap Atom.operand? := by
  induction h with
  | operand value => rfl
  | call _ _ ih =>
      simp [postorder, SyntaxTree.atoms, operands_args ih, PostfixItem.operand?, Atom.operand?,
        List.filterMap_cons]
  | bracket _ ih => simp [postorder, SyntaxTree.atoms, ih, Atom.operand?, List.filterMap_cons]
  | before _ _ _ ih | after _ _ _ ih =>
      simp [postorder, SyntaxTree.atoms, ih, PostfixItem.operand?, Atom.operand?,
        List.filterMap_cons]
  | @between _ written _ _ _ _ _ _ _ _ ihleft ihright =>
      cases written <;>
        simp [postorder, SyntaxTree.atoms, mark, ihleft, ihright, PostfixItem.operand?,
          Atom.operand?, List.filterMap_cons]

/-- The operators of a tree are those that are written and a product for each that is not. -/
structure Supplied (product : Operator) (tree : SyntaxTree α) (count : Nat) : Prop where
  joints : ∀ ended rest, implicitProducts ended (tree.atoms ++ rest) =
    (if ended && !tree.signed then 1 else 0) + count + implicitProducts true rest
  operators : ∀ operator, (tree.postorder.filterMap PostfixItem.operator?).count operator =
    (tree.atoms.filterMap Atom.operator?).count operator +
      (List.replicate count product).count operator

theorem exists_supplied_args (h : ∀ arg ∈ args, ∃ count, Supplied product arg count) :
    ∃ count, (∀ rest, implicitProducts false (argsAtoms args ++ .closing :: rest) =
        count + implicitProducts true rest) ∧
      ∀ operator, ((argsPostorder args).filterMap PostfixItem.operator?).count operator =
        ((argsAtoms args).filterMap Atom.operator?).count operator +
          (List.replicate count product).count operator := by
  induction args with
  | nil =>
      exact ⟨0, by simp [argsAtoms, implicitProducts, Atom.ends],
        by simp [argsPostorder, argsAtoms]⟩
  | cons arg args ih =>
      obtain ⟨⟨first, hfirst⟩, hargs⟩ := List.forall_mem_cons.mp h
      cases args with
      | nil =>
          refine ⟨first, fun rest => ?_, fun operator => ?_⟩
          · simp [argsAtoms, hfirst.joints, implicitProducts, Atom.starts, Atom.ends]
          · simpa [argsAtoms, argsPostorder] using hfirst.operators operator
      | cons next others =>
          obtain ⟨count, hjoints, hoperators⟩ := ih hargs
          refine ⟨first + count, fun rest => ?_, fun operator => ?_⟩
          · rw [argsAtoms]
            · simp [hfirst.joints, implicitProducts, Atom.starts, Atom.ends, hjoints, add_assoc]
            · simp
          · have hone := hfirst.operators operator
            have hmore := hoperators operator
            rw [argsAtoms, argsPostorder]
            · simp only [List.filterMap_append, List.count_append, List.filterMap_cons,
                Atom.operator?, List.replicate_add, hone, hmore]
              omega
            · simp

theorem Grouped.exists_supplied (h : Grouped scope product tree) :
    ∃ count, Supplied product tree count := by
  induction h with
  | operand value =>
      exact ⟨0, by simp [SyntaxTree.atoms, implicitProducts, signed, Atom.starts, Atom.ends],
        by simp [postorder, SyntaxTree.atoms, PostfixItem.operator?, Atom.operator?,
          List.filterMap_cons]⟩
  | call _ _ ih =>
      obtain ⟨count, hjoints, hoperators⟩ := exists_supplied_args ih
      refine ⟨count, fun ended rest => ?_, fun operator => ?_⟩
      · simp [SyntaxTree.atoms, implicitProducts, signed, Atom.starts, Atom.ends, hjoints,
          add_assoc]
      · simp [postorder, SyntaxTree.atoms, PostfixItem.operator?, Atom.operator?, hoperators,
          List.filterMap_cons]
  | bracket _ ih =>
      obtain ⟨count, hsupplied⟩ := ih
      refine ⟨count, fun ended rest => ?_, fun operator => ?_⟩
      · simp [SyntaxTree.atoms, implicitProducts, signed, Atom.starts, Atom.ends,
          hsupplied.joints, add_assoc]
      · simpa [postorder, SyntaxTree.atoms, Atom.operator?, List.filterMap_cons] using
          hsupplied.operators operator
  | before hrole _ _ ih =>
      obtain ⟨count, hsupplied⟩ := ih
      refine ⟨count, fun ended rest => ?_, fun operator => ?_⟩
      · simp [SyntaxTree.atoms, implicitProducts, signed, Atom.starts, Atom.ends, hrole,
          hsupplied.joints]
      · have hbody := hsupplied.operators operator
        simp [postorder, SyntaxTree.atoms, PostfixItem.operator?, Atom.operator?, hbody,
          List.count_cons]
        omega
  | after hrole _ _ ih =>
      obtain ⟨count, hsupplied⟩ := ih
      refine ⟨count, fun ended rest => ?_, fun operator => ?_⟩
      · simp [SyntaxTree.atoms, implicitProducts, signed, Atom.starts, Atom.ends, hrole,
          hsupplied.joints]
      · have hbody := hsupplied.operators operator
        simp [postorder, SyntaxTree.atoms, PostfixItem.operator?, Atom.operator?, hbody,
          List.count_cons]
        omega
  | @between operator written left right hrole _ _ _ _ hwritten ihleft ihright =>
      obtain ⟨first, hfirst⟩ := ihleft
      obtain ⟨second, hsecond⟩ := ihright
      cases written with
      | true =>
          refine ⟨first + second, fun ended rest => ?_, fun other => ?_⟩
          · simp [SyntaxTree.atoms, mark, implicitProducts, signed, Atom.starts, Atom.ends, hrole,
              hfirst.joints, hsecond.joints, add_assoc]
          · have hone := hfirst.operators other
            have htwo := hsecond.operators other
            simp [postorder, SyntaxTree.atoms, mark, PostfixItem.operator?, Atom.operator?, hone,
              htwo, List.count_cons, List.count_replicate]
            split_ifs <;> omega
      | false =>
          obtain ⟨rfl, hsigned⟩ := hwritten rfl
          refine ⟨first + second + 1, fun ended rest => ?_, fun other => ?_⟩
          · simp [SyntaxTree.atoms, mark, signed, hfirst.joints, hsecond.joints, hsigned]
            omega
          · have hone := hfirst.operators other
            have htwo := hsecond.operators other
            simp [postorder, SyntaxTree.atoms, mark, PostfixItem.operator?, Atom.operator?, hone,
              htwo, List.count_cons, List.count_replicate]
            split_ifs <;> omega

/-! ## Tokens -/

section

variable {expecting : Bool} {tokens : List Token} {atoms : List (Atom α)}

/-- Every character of a run belongs to one operator. -/
theorem Splits.exists_groups (h : Splits scope expecting tokens atoms) :
    ∃ groups : List (List Operator),
      List.Forall₂ (fun token group =>
          token.text.toList = group.flatMap fun operator => operator.symbol.toList)
        (tokens.filter fun token => token.kind == .operators) groups ∧
      atoms.filterMap Atom.operator? = groups.flatten := by
  induction h with
  | nil => exact ⟨[], .nil, rfl⟩
  | number hkind _ _ ih | name hkind _ _ _ _ ih | opening hkind _ ih | closing hkind _ ih
  | comma hkind _ ih =>
      obtain ⟨groups, hgroups, hatoms⟩ := ih
      exact ⟨groups, by simpa [hkind] using hgroups, hatoms⟩
  | call hkind _ hopening _ ih =>
      obtain ⟨groups, hgroups, hatoms⟩ := ih
      exact ⟨groups, by simpa [hkind, hopening] using hgroups, hatoms⟩
  | @run _ _ token _ _ operators hkind hrun _ ih =>
      obtain ⟨groups, hgroups, hatoms⟩ := ih
      have hoperators : (operators.map (Atom.operator : Operator → Atom α)).filterMap
          Atom.operator? = operators := by
        rw [List.filterMap_map]
        exact List.filterMap_some
      refine ⟨operators :: groups, ?_, ?_⟩
      · rw [List.filter_cons_of_pos (by simp [hkind])]
        exact .cons hrun.run_eq hgroups
      · rw [List.filterMap_append, hoperators, hatoms, List.flatten_cons]

end

/-- Numbers, and names that are no functions. -/
def Token.isOperand (token : Token) : Bool :=
  token.kind == .number ||
    (token.kind == .name && !FunctionTable.standard.contains token.text)

/-- The operand that a token stands for. -/
inductive Token.Denotes (token : Token) : Expr → Prop
  | number {value : Rat} (hkind : token.kind = .number)
      (hvalue : Numeral.toRat token.text = .ok value) : Denotes token (.number value)
  | name (hkind : token.kind = .name) : Denotes token (.named token.text)

variable {read : Reader} {table : OperatorTable} {tokens : List Token}

theorem Splits.operands {expecting : Bool} {atoms : List (Atom Expr)}
    (h : Splits (Environment.standard.grammar read table []) expecting tokens atoms) :
    List.Forall₂ Token.Denotes (tokens.filter Token.isOperand)
      (atoms.filterMap Atom.operand?) := by
  induction h with
  | nil => exact .nil
  | number hkind hvalue _ ih =>
      obtain ⟨value, hrat, hnumber⟩ := exists_of_bind hvalue
      cases hnumber
      rw [List.filter_cons_of_pos (by simp [Token.isOperand, hkind])]
      exact .cons (.number hkind hrat) ih
  | @name _ token _ _ value hkind hfree _ hvalue _ ih =>
      have hfree : FunctionTable.standard.contains token.text = false := hfree
      have hnamed : (.ok (.named token.text) : Except Fault Expr) = .ok value :=
        (Environment.operand_standard read hfree token.position).symm.trans hvalue
      cases hnamed
      rw [List.filter_cons_of_pos (by simp [Token.isOperand, hkind, hfree])]
      exact .cons (.name hkind) ih
  | @call _ token _ _ _ hkind hfunction hopening _ ih =>
      have hfunction : FunctionTable.standard.contains token.text = true := hfunction
      rw [List.filter_cons_of_neg (by simp [Token.isOperand, hkind, hfunction]),
        List.filter_cons_of_neg (by simp [Token.isOperand, hopening])]
      exact ih
  | opening hkind _ ih | closing hkind _ ih | comma hkind _ ih =>
      rw [List.filter_cons_of_neg (by simp [Token.isOperand, hkind])]
      exact ih
  | @run _ _ _ _ _ operators hkind _ _ ih =>
      have hnone : (operators.map (Atom.operator : Operator → Atom Expr)).filterMap
          Atom.operand? = [] := by
        simp [Atom.operand?]
      rw [List.filter_cons_of_neg (by simp [Token.isOperand, hkind]), List.filterMap_append, hnone]
      exact ih

/-! ## Texts -/

/-- What the postfix order of tokens keeps of them. -/
structure OrderOf (table : OperatorTable) (product : Operator) (tokens : List Token)
    (items : List (PostfixItem Expr)) : Prop where
  depth : depthAfter 0 items = some 1
  arity : ∀ (env : Environment) (read : Reader) before item after stack,
    items = before ++ item :: after → env.replay read [] before = .ok stack →
      item.arity ≤ stack.length
  value : ∀ (env : Environment) (read : Reader) stack,
    env.replay read [] items = .ok stack → stack.length = 1
  operands : List.Forall₂ Token.Denotes (tokens.filter Token.isOperand)
    (items.filterMap PostfixItem.operand?)
  operators : ∃ atoms groups,
    Splits (Environment.standard.grammar (Environment.readNested Environment.deepest) table [])
      true tokens atoms ∧
    List.Forall₂ (fun token group =>
        token.text.toList = group.flatMap fun operator => operator.symbol.toList)
      (tokens.filter fun token => token.kind == .operators) groups ∧
    (items.filterMap PostfixItem.operator?).Perm
      (groups.flatten ++ List.replicate (implicitProducts false atoms) product)

theorem Grouped.orderOf {tree : SyntaxTree Expr}
    (h : Grouped
      (Environment.standard.grammar (Environment.readNested Environment.deepest) table [])
      product tree)
    (hsplits : Splits
      (Environment.standard.grammar (Environment.readNested Environment.deepest) table [])
      true tokens tree.atoms) : OrderOf table product tokens tree.postorder := by
  have hdepth : depthAfter 0 tree.postorder = some 1 := by
    have hall := h.depthAfter_postorder 0 []
    rw [List.append_nil] at hall
    exact hall
  obtain ⟨groups, hgroups, hoperators⟩ := hsplits.exists_groups
  obtain ⟨count, hsupplied⟩ := h.exists_supplied
  have hcount : implicitProducts false tree.atoms = count := by
    have hjoints := hsupplied.joints false []
    rw [List.append_nil] at hjoints
    simpa [implicitProducts] using hjoints
  refine ⟨hdepth, ?_, ?_, h.operands ▸ hsplits.operands, tree.atoms, groups, hsplits, hgroups, ?_⟩
  · intro env read before item after stack hitems hreplay
    rw [hitems] at hdepth
    have hstart : depthAfter ([] : List Expr).length (before ++ item :: after) = some 1 := hdepth
    exact Environment.arity_le_of_replay hstart hreplay
  · intro env read stack hreplay
    have hstart : depthAfter ([] : List Expr).length (tree.postorder ++ []) = some 1 := by
      rw [List.append_nil]
      exact hdepth
    exact Option.some.inj (Environment.length_replay hstart hreplay)
  · rw [List.perm_iff_count]
    intro operator
    rw [hsupplied.operators, List.count_append, ← hoperators, hcount]

/-- With any operators, if there is a product, a text gives a parse fault at a place in the text or
a postfix order that can be replayed and keeps the operands and the operators of the text. -/
theorem postfixOf_spec {product : Operator} (hproduct : table.find? "*" .between = some product)
    (text : String) :
    (∀ fault, Environment.standard.postfixOf table [] text = .error fault →
      ∃ cause position, fault = .parse cause position ∧ position ≤ text.length) ∧
    ∀ items, Environment.standard.postfixOf table [] text = .ok items →
      ∃ tokens, Environment.standard.tokens table text = .ok tokens ∧
        OrderOf table product tokens items := by
  have hscan := Token.located_scan (Environment.standard.alphabet table) 0 false text.toList
  rw [Nat.zero_add, String.length_toList] at hscan
  cases htokens : Environment.standard.tokens table text with
  | error fault =>
      rw [Environment.postfixOf, htokens]
      refine ⟨?_, nofun⟩
      rintro fault' ⟨⟩
      exact hscan fault htokens
  | ok tokens =>
      have hlexed := Token.spec_of_mem_scan htokens
      rw [Nat.zero_add, String.length_toList] at hlexed
      rw [Environment.postfixOf, htokens]
      refine ⟨?_, fun items hitems => ⟨tokens, rfl, ?_⟩⟩
      · have hconstants : Environment.standard.HasConstants := nofun
        refine located_ofTokens hproduct
          (Environment.located_operand (Environment.readNested Environment.deepest) rfl hconstants)
          (fun token htoken hkind => ?_)
          (fun token htoken offset hoffset => ?_) le_rfl
        · obtain ⟨value, hvalue⟩ := (hlexed token htoken).1.number hkind
          simp only [Environment.grammar, hvalue]
          exact located_ok _
        · have := (hlexed token htoken).2
          omega
      · obtain ⟨tree, hgrouped, hsplits, rfl⟩ := (ofTokens_eq_ok_iff hproduct
          (Environment.free_of_operand (Environment.readNested Environment.deepest))
          (fun token htoken _ => (hlexed token htoken).1.ne) text.length).mp hitems
        exact hgrouped.orderOf hsplits

/-- The theorem for the product of two operands in the standard notation. -/
theorem postfixOf_spec_joined :
    (∀ fault, Environment.standard.postfixOf .standard [] "2 x" = .error fault →
      ∃ cause position, fault = .parse cause position ∧ position ≤ 3) ∧
    ∀ items, Environment.standard.postfixOf .standard [] "2 x" = .ok items →
      ∃ tokens, Environment.standard.tokens .standard "2 x" = .ok tokens ∧
        OrderOf .standard ⟨"*", .multiply, 2, .left, .between⟩ tokens items :=
  postfixOf_spec (by decide) "2 x"

end ExactAlgebra
