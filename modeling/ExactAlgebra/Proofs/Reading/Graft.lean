import ExactAlgebra.Proofs.Reading.Replay

/-!
# Trees in brackets in place of operands

A tree in brackets can take the place of an operand: precedence allows the one where it allows
the other.  If the tree has the operand as its value, the postorder of the whole keeps its value.
-/

namespace ExactAlgebra

open Postfix SyntaxTree

variable {α β : Type}

/-! ## Lists in place of an element -/

/-- The second list has another list in place of some of the occurrences of an element in the
first. -/
inductive Replaced (element : β) (instead : List β) : List β → List β → Prop
  | nil : Replaced element instead [] []
  | keep {before after : List β} (other : β) (hrest : Replaced element instead before after) :
      Replaced element instead (other :: before) (other :: after)
  | replace {before after : List β} (hrest : Replaced element instead before after) :
      Replaced element instead (element :: before) (instead ++ after)

namespace Replaced

variable {element other : β} {instead before after before' after' : List β}

theorem refl (element : β) (instead : List β) : ∀ list, Replaced element instead list list
  | [] => .nil
  | other :: rest => .keep other (refl element instead rest)

theorem append (h : Replaced element instead before after)
    (h' : Replaced element instead before' after') :
    Replaced element instead (before ++ before') (after ++ after') := by
  induction h with
  | nil => exact h'
  | keep other _ ih => exact .keep other ih
  | replace _ ih =>
      rw [List.append_assoc]
      exact .replace ih

theorem eq_of_not_mem (hmem : element ∉ before) (h : Replaced element instead before after) :
    after = before := by
  induction h with
  | nil => rfl
  | keep other _ ih => rw [ih fun h => hmem (List.mem_cons_of_mem _ h)]
  | replace => exact absurd List.mem_cons_self hmem

theorem exists_cons (hne : other ≠ element)
    (h : Replaced element instead (other :: before) after) :
    ∃ rest, after = other :: rest ∧ Replaced element instead before rest := by
  cases h with
  | keep _ hrest => exact ⟨_, rfl, hrest⟩
  | replace => exact absurd rfl hne

theorem exists_append (h : Replaced element instead (before ++ before') after) :
    ∃ first second, after = first ++ second ∧ Replaced element instead before first ∧
      Replaced element instead before' second := by
  induction before generalizing after with
  | nil => exact ⟨[], after, rfl, .nil, h⟩
  | cons other before ih =>
      cases h with
      | keep _ hrest =>
          obtain ⟨first, second, rfl, hfirst, hsecond⟩ := ih hrest
          exact ⟨other :: first, second, rfl, .keep other hfirst, hsecond⟩
      | replace hrest =>
          obtain ⟨first, second, rfl, hfirst, hsecond⟩ := ih hrest
          exact ⟨instead ++ first, second, (List.append_assoc ..).symm, .replace hfirst, hsecond⟩

end Replaced

/-! ## Trees -/

variable {scope scope' : Grammar α} {product : Operator} {inner tree tree' : SyntaxTree α}
  {value : α} {atoms : List (Atom α)} {args args' : List (SyntaxTree α)}

/-- Precedence does not tell a tree from another, which has an inner one in brackets in place of
some of the operands with a value. -/
structure SyntaxTree.Grafted (scope : Grammar α) (product : Operator) (value : α)
    (inner tree tree' : SyntaxTree α) : Prop where
  grouped : Grouped scope product tree'
  leading : tree'.leading = tree.leading
  waiting : tree'.waiting = tree.waiting
  signed : tree'.signed = tree.signed
  postorder : Replaced (.operand value) inner.postorder tree.postorder tree'.postorder

/-- The atoms of a tree with brackets around them. -/
def SyntaxTree.enclosed (inner : SyntaxTree α) : List (Atom α) :=
  .opening :: inner.atoms ++ [.closing]

theorem exists_grafted_args
    (h : ∀ arg ∈ args, ∀ atoms, Replaced (.operand value) inner.enclosed arg.atoms atoms →
      ∃ arg', arg'.atoms = atoms ∧ Grafted scope product value inner arg arg')
    (hatoms : Replaced (.operand value) inner.enclosed (argsAtoms args) atoms) :
    ∃ args', argsAtoms args' = atoms ∧ args'.length = args.length ∧
      (∀ arg ∈ args', Grouped scope product arg) ∧
      Replaced (.operand value) inner.postorder (argsPostorder args) (argsPostorder args') := by
  induction args generalizing atoms with
  | nil =>
      obtain rfl := hatoms.eq_of_not_mem (List.not_mem_nil)
      exact ⟨[], rfl, rfl, by simp, .nil⟩
  | cons arg args ih =>
      obtain ⟨harg, hargs⟩ := List.forall_mem_cons.mp h
      cases args with
      | nil =>
          obtain ⟨arg', rfl, hgrafted⟩ := harg atoms hatoms
          exact ⟨[arg'], rfl, rfl, by simpa using hgrafted.grouped, hgrafted.postorder.append .nil⟩
      | cons next others =>
          rw [argsAtoms_cons (by simp)] at hatoms
          obtain ⟨first, second, rfl, hfirst, hsecond⟩ := hatoms.exists_append
          obtain ⟨rest, rfl, hrest⟩ := hsecond.exists_cons (by simp)
          obtain ⟨arg', rfl, hgrafted⟩ := harg first hfirst
          obtain ⟨args', rfl, hlength, hgrouped, hpostorder⟩ := ih hargs hrest
          refine ⟨arg' :: args', ?_, by simpa using hlength,
            List.forall_mem_cons.mpr ⟨hgrafted.grouped, hgrouped⟩,
            hgrafted.postorder.append hpostorder⟩
          exact argsAtoms_cons (by rintro rfl; simp at hlength) arg'

/-- Brackets are an operand for precedence. -/
theorem Grouped.exists_grafted (hinner : Grouped scope product inner)
    (h : Grouped scope' product tree) (haccepts : scope'.accepts = scope.accepts)
    (hatoms : Replaced (.operand value) inner.enclosed tree.atoms atoms) :
    ∃ tree', tree'.atoms = atoms ∧ Grafted scope product value inner tree tree' := by
  induction h generalizing atoms with
  | operand other =>
      rw [SyntaxTree.atoms] at hatoms
      cases hatoms with
      | keep _ hrest =>
          obtain rfl := hrest.eq_of_not_mem (by simp)
          exact ⟨.operand other, rfl, .operand other, rfl, rfl, rfl, .refl ..⟩
      | replace hrest =>
          obtain rfl := hrest.eq_of_not_mem (by simp)
          exact ⟨.bracket inner, by simp [SyntaxTree.atoms, enclosed], .bracket hinner, rfl, rfl,
            rfl, by simpa [postorder] using Replaced.replace .nil⟩
  | @call name args hcount hargs ih =>
      rw [SyntaxTree.atoms, List.cons_append] at hatoms
      obtain ⟨rest, rfl, hrest⟩ := hatoms.exists_cons (by simp)
      obtain ⟨first, second, rfl, hfirst, hsecond⟩ := hrest.exists_append
      obtain ⟨args', rfl, hlength, hgrouped, hpostorder⟩ :=
        exists_grafted_args (fun arg harg atoms => ih arg harg) hfirst
      obtain rfl := hsecond.eq_of_not_mem (by simp)
      refine ⟨.call name args', rfl, .call (hlength ▸ haccepts ▸ hcount) hgrouped, rfl, rfl, rfl,
        ?_⟩
      rw [postorder, postorder, hlength]
      exact hpostorder.append (.refl ..)
  | bracket hbody ih =>
      rw [SyntaxTree.atoms, List.cons_append] at hatoms
      obtain ⟨rest, rfl, hrest⟩ := hatoms.exists_cons (by simp)
      obtain ⟨first, second, rfl, hfirst, hsecond⟩ := hrest.exists_append
      obtain ⟨body', rfl, hgrafted⟩ := ih hfirst
      obtain rfl := hsecond.eq_of_not_mem (by simp)
      exact ⟨.bracket body', rfl, .bracket hgrafted.grouped, rfl, rfl, rfl, hgrafted.postorder⟩
  | @before operator body hrole hbody hleading ih =>
      rw [SyntaxTree.atoms] at hatoms
      obtain ⟨rest, rfl, hrest⟩ := hatoms.exists_cons (by simp)
      obtain ⟨body', rfl, hgrafted⟩ := ih hrest
      refine ⟨.before operator body', rfl,
        .before hrole hgrafted.grouped (hgrafted.leading ▸ hleading), rfl, ?_, rfl,
        hgrafted.postorder.append (.refl ..)⟩
      rw [waiting, waiting, hgrafted.waiting]
  | @after operator body hrole hbody hwaiting ih =>
      rw [SyntaxTree.atoms] at hatoms
      obtain ⟨first, second, rfl, hfirst, hsecond⟩ := hatoms.exists_append
      obtain ⟨body', rfl, hgrafted⟩ := ih hfirst
      obtain rfl := hsecond.eq_of_not_mem (by simp)
      exact ⟨.after operator body', rfl,
        .after hrole hgrafted.grouped (hgrafted.waiting.trans hwaiting), hgrafted.leading, rfl,
        hgrafted.signed, hgrafted.postorder.append (.refl ..)⟩
  | @between operator written left right hrole hleft hright hwaiting hleading hwritten ihLeft
      ihRight =>
      rw [SyntaxTree.atoms] at hatoms
      obtain ⟨front, last, rfl, hfront, hlast⟩ := hatoms.exists_append
      obtain ⟨first, middle, rfl, hfirst, hmiddle⟩ := hfront.exists_append
      obtain ⟨left', rfl, hgraftedLeft⟩ := ihLeft hfirst
      obtain ⟨right', rfl, hgraftedRight⟩ := ihRight hlast
      obtain rfl := hmiddle.eq_of_not_mem (by cases written <;> simp [mark])
      refine ⟨.between operator written left' right', rfl,
        .between hrole hgraftedLeft.grouped hgraftedRight.grouped (hgraftedLeft.waiting ▸ hwaiting)
          (hgraftedRight.leading ▸ hleading) (hgraftedRight.signed ▸ hwritten), ?_, ?_,
        hgraftedLeft.signed,
        (hgraftedLeft.postorder.append hgraftedRight.postorder).append (.refl ..)⟩
      · rw [leading, leading, hgraftedLeft.leading]
      · rw [waiting, waiting, hgraftedRight.waiting]

/-! ## Values -/

namespace Environment

variable {env : Environment} {read : Reader} {value : Expr} {stack stack' : List Expr}
  {depth : Nat} {instead items items' : List (PostfixItem Expr)}

/-- A replay does not touch what is below its operands. -/
theorem replay_append (hdepth : depthAfter stack.length items = some depth)
    (hreplay : env.replay read stack items = .ok stack') (below : List Expr) :
    env.replay read (stack ++ below) items = .ok (stack' ++ below) := by
  induction items generalizing stack with
  | nil =>
      cases hreplay
      rfl
  | cons item items ih =>
      cases item with
      | operand value => exact ih hdepth hreplay
      | operator operator =>
          rw [depthAfter] at hdepth
          split_ifs at hdepth with hle
          obtain ⟨value, hvalue, hreplay⟩ := exists_of_bind hreplay
          rw [replay, List.take_append_of_le_length hle, List.drop_append_of_le_length hle]
          exact bind_eq_ok hvalue (ih (by simpa using hdepth) hreplay)
      | call name count =>
          rw [depthAfter] at hdepth
          split_ifs at hdepth with hle
          obtain ⟨value, hvalue, hreplay⟩ := exists_of_bind hreplay
          rw [replay, List.take_append_of_le_length hle, List.drop_append_of_le_length hle]
          exact bind_eq_ok hvalue (ih (by simpa using hdepth) hreplay)
      | missingProduct => cases hreplay

/-- The postorder of a tree leaves its value on any stack. -/
theorem replay_postorder {scope : Grammar Expr} {tree : SyntaxTree Expr}
    (h : Grouped scope product tree) (hvalue : env.evaluateItems read [] tree.postorder = .ok value)
    (stack : List Expr) : env.replay read stack tree.postorder = .ok (value :: stack) := by
  have hdepth : depthAfter ([] : List Expr).length (tree.postorder ++ []) = some 1 :=
    h.depthAfter_postorder 0 []
  rw [← List.append_nil tree.postorder, evaluateItems_append] at hvalue
  obtain ⟨result, hreplay, hvalue⟩ := exists_of_bind hvalue
  have hlength := length_replay hdepth hreplay
  rw [List.append_nil] at hdepth
  obtain ⟨only, rfl⟩ := List.length_eq_one_iff.mp (Option.some.inj hlength)
  obtain rfl : only = value := Except.ok.inj hvalue
  exact replay_append hdepth hreplay stack

/-- Items that leave a value on the stack can take its place. -/
theorem evaluateItems_of_replaced
    (hinstead : ∀ stack, env.replay read stack instead = .ok (value :: stack))
    (h : Replaced (.operand value) instead items items') (stack : List Expr) :
    env.evaluateItems read stack items' = env.evaluateItems read stack items := by
  induction h generalizing stack with
  | nil => rfl
  | keep item hrest ih =>
      cases item with
      | operand other => exact ih (other :: stack)
      | operator operator => exact bind_congr fun result => ih _
      | call name count => exact bind_congr fun result => ih _
      | missingProduct => rfl
  | replace hrest ih =>
      rw [evaluateItems_append, hinstead]
      exact ih (value :: stack)

end Environment

end ExactAlgebra
