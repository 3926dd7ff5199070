import ExactAlgebra.Proofs.Reading.Functions
import ExactAlgebra.Proofs.Reading.Text

/-!
# Texts denote readable expressions

What a text denotes in the standard environment is readable: names and numbers are, and
operations and calls keep it so.
-/

namespace ExactAlgebra

open ExactAlgebra.Expr Reduce

variable {alphabet : Alphabet} {read : Reader} {text : String} {node : Expr}

/-! ## Names in tokens -/

namespace Token

/-- The text of a name token is a name. -/
theorem isName_of_mem_scan {position : Nat} {spaced : Bool} {characters : List Char}
    {tokens : List Token} (h : scan alphabet position spaced characters = .ok tokens) :
    ∀ token ∈ tokens, token.kind = .name → Phrase.IsName alphabet token.text := by
  induction position, spaced, characters using scan.induct alphabet generalizing tokens with
  | case1 =>
      rw [scan] at h
      cases h
      simp
  | case2 position spaced first rest hblank ih =>
      rw [scan, if_pos hblank] at h
      exact ih h
  | case3 position spaced first rest hblank hlexeme =>
      rw [scan, if_neg hblank, hlexeme] at h
      cases h
  | case4 position spaced first rest hblank kind count hlexeme ih =>
      rw [scan, if_neg hblank, hlexeme] at h
      cases hrest : scan alphabet (position + count + 1) false (rest.drop count) with
      | error fault => simp [hrest, bind, Except.bind] at h
      | ok others =>
          simp only [hrest, bind, Except.bind, pure, Except.pure, Except.ok.injEq] at h
          subst h
          refine List.forall_mem_cons.mpr ⟨fun hkind => ?_, ih hrest⟩
          have hname : kind = .name := hkind
          subst hname
          rw [lexeme?] at hlexeme
          split_ifs at hlexeme with _ hletter <;>
            simp only [Option.some.injEq, Prod.mk.injEq, reduceCtorEq, false_and] at hlexeme
          refine ⟨first, rest.take count, String.toList_ofList, hletter, ?_⟩
          rw [← hlexeme.2, ← List.prefix_iff_eq_take.mp (List.takeWhile_prefix _)]
          exact List.all_takeWhile

end Token

/-! ## Operands in postfix order -/

/-- A result of two steps comes from a result of the first. -/
theorem exists_of_bind {α β : Type} {outcome : Except Fault α} {next : α → Except Fault β}
    {result : β} (h : outcome >>= next = .ok result) :
    ∃ value, outcome = .ok value ∧ next value = .ok result := by
  cases outcome with
  | error fault => simp [bind, Except.bind] at h
  | ok value => exact ⟨value, rfl, h⟩

theorem bind_eq_ok {α β : Type} {outcome : Except Fault α} {next : α → Except Fault β} {value : α}
    {result : β} (h : outcome = .ok value) (hnext : next value = .ok result) :
    outcome >>= next = .ok result := by
  rw [h]
  exact hnext

/-- Every operand among some items has a property. -/
def Operands (property : Expr → Prop) (items : List (PostfixItem Expr)) : Prop :=
  ∀ value, .operand value ∈ items → property value

/-- The operands of a notation have a property. -/
structure Grammar.Supplies (scope : Grammar Expr) (property : Expr → Prop) : Prop where
  number : ∀ {text value}, scope.number text = .ok value → property value
  name : ∀ {text position value}, Phrase.IsName Token.standardAlphabet text →
    scope.name text position = .ok value → property value

section

variable {property : Expr → Prop} {items items' : List (PostfixItem Expr)} {value : Expr}
  {scope : Grammar Expr} {s s' : Conversion Expr} {stack stack' : List Waiting}
  {output output' : List (PostfixItem Expr)}

@[simp] theorem operands_nil : Operands property [] := fun _ h => by cases h

@[simp] theorem operands_operand :
    Operands property (.operand value :: items) ↔ property value ∧ Operands property items := by
  simp [Operands]

@[simp] theorem operands_operator (operator : Operator) :
    Operands property (.operator operator :: items) ↔ Operands property items := by
  simp [Operands]

@[simp] theorem operands_call (name : String) (count : Nat) :
    Operands property (.call name count :: items) ↔ Operands property items := by
  simp [Operands]

@[simp] theorem operands_missingProduct :
    Operands property (.missingProduct :: items) ↔ Operands property items := by
  simp [Operands]

namespace Postfix

theorem operands_yield (next : Operator) (h : Operands property output) :
    Operands property (yield next output stack).1 := by
  fun_induction yield next output stack with
  | case1 _ _ _ _ ih => exact ih (by simpa using h)
  | case2 | case3 => exact h

theorem operands_push (next : Operator) (h : Operands property s.output) :
    Operands property (push next s).output := operands_yield next h

theorem operands_pushProduct {table : OperatorTable} (h : Operands property s.output)
    (hs : pushProduct table s = .ok s') : Operands property s'.output := by
  unfold pushProduct at hs
  split at hs
  · cases hs
    exact operands_push _ h
  · cases hs
  · cases hs
    exact h

theorem operands_unwind {bracket : Bracket} (h : Operands property output)
    (hunwind : unwind output stack = some (bracket, output', stack')) :
    Operands property output' := by
  fun_induction unwind output stack with
  | case1 => cases hunwind
  | case2 =>
      cases hunwind
      exact h
  | case3 _ _ _ ih | case4 _ _ ih => exact ih (by simpa using h) hunwind

theorem operands_append_operators (operators : List Operator) (h : Operands property output) :
    Operands property ((operators.map PostfixItem.operator).reverse ++ output) := by
  intro value hvalue
  rw [List.mem_append, List.mem_reverse, List.mem_map] at hvalue
  rcases hvalue with ⟨operator, -, heq⟩ | hvalue
  · cases heq
  · exact h value hvalue

theorem operands_readRun {table : OperatorTable} {position : Nat} {run : List Char}
    (h : Operands property s.output) (hs : readRun table position run s = .ok s') :
    Operands property s'.output := by
  unfold readRun at hs
  split_ifs at hs
  · obtain ⟨before, -, hs⟩ := exists_of_bind hs
    cases hs
    exact h
  · generalize suffixes table position run = found at hs
    obtain ⟨after, place, rest⟩ := found
    have houtput := operands_append_operators after h
    dsimp only at hs
    split_ifs at hs
    · cases hs
      exact houtput
    · split at hs
      · cases hs
      · obtain ⟨before, -, hs⟩ := exists_of_bind hs
        cases hs
        exact operands_push _ houtput

theorem operands_readComma {position : Nat} (h : Operands property s.output)
    (hs : readComma position s = .ok s') : Operands property s'.output := by
  unfold readComma at hs
  split_ifs at hs
  split at hs
  · cases hs
  next hunwind =>
    split at hs
    · cases hs
    · cases hs
      exact operands_unwind h hunwind

theorem operands_readClose {index position : Nat} (h : Operands property s.output)
    (hs : readClose scope index position s = .ok s') : Operands property s'.output := by
  unfold readClose at hs
  split at hs
  · cases hs
  next hunwind =>
    have houtput := operands_unwind h hunwind
    dsimp only at hs
    split at hs
    · split_ifs at hs
      cases hs
      exact houtput
    · split_ifs at hs <;> cases hs <;> simpa using houtput

theorem operands_joinOperand {kind : TokenKind} (h : Operands property s.output)
    (hs : joinOperand scope kind s = .ok s') : Operands property s'.output := by
  unfold joinOperand at hs
  split at hs
  case h_4 =>
    cases hs
    exact h
  all_goals
    split_ifs at hs
    · cases hs
      exact h
    · exact operands_pushProduct h hs

/-- A conversion outputs operands of its notation. -/
theorem operands_convert (hscope : scope.Supplies property) {index : Nat} {tokens : List Token}
    (htokens : ∀ token ∈ tokens, token.kind = .name →
      Phrase.IsName Token.standardAlphabet token.text)
    (h : Operands property s.output) (hs : convert scope index s tokens = .ok s') :
    Operands property s'.output := by
  induction index, s, tokens using convert.induct with
  | case1 =>
      cases hs
      exact h
  | case2 index s token rest ihNumber ihName ihOpening ihOther =>
      obtain ⟨htoken, hrest⟩ := List.forall_mem_cons.mp htokens
      rw [convert] at hs
      obtain ⟨joined, hjoined, hs⟩ := exists_of_bind hs
      replace h := operands_joinOperand h hjoined
      have hput : ∀ {operand}, property operand →
          Operands property (putOperand operand joined).output := fun hoperand => by
        simpa [putOperand] using And.intro hoperand h
      cases hkind : token.kind with
      | number =>
          simp only [hkind] at hs
          obtain ⟨operand, hoperand, hs⟩ := exists_of_bind hs
          exact ihNumber joined operand hrest (hput (hscope.number hoperand)) hs
      | name =>
          simp only [hkind] at hs
          cases rest with
          | nil =>
              obtain ⟨operand, hoperand, hs⟩ := exists_of_bind hs
              cases hs
              exact hput (hscope.name (htoken hkind) hoperand)
          | cons next others =>
              obtain ⟨ihCall, ihOperand⟩ := ihName joined
              obtain ⟨called, -, hs⟩ := exists_of_bind hs
              split_ifs at hs
              · exact ihCall (List.forall_mem_cons.mp hrest).2 h hs
              · obtain ⟨operand, hoperand, hs⟩ := exists_of_bind hs
                exact ihOperand operand hrest (hput (hscope.name (htoken hkind) hoperand)) hs
      | opening =>
          simp only [hkind] at hs
          exact ihOpening joined hrest h hs
      | operators =>
          simp only [hkind] at hs
          obtain ⟨after, hafter, hs⟩ := exists_of_bind hs
          exact ihOther after hrest (operands_readRun h hafter) hs
      | comma =>
          simp only [hkind] at hs
          obtain ⟨after, hafter, hs⟩ := exists_of_bind hs
          exact ihOther after hrest (operands_readComma h hafter) hs
      | closing =>
          simp only [hkind] at hs
          obtain ⟨after, hafter, hs⟩ := exists_of_bind hs
          exact ihOther after hrest (operands_readClose h hafter) hs

theorem operands_finish (h : Operands property output) (hs : finish output stack = .ok items) :
    Operands property items := by
  fun_induction finish output stack with
  | case1 =>
      cases hs
      exact fun value hvalue => h value (List.mem_reverse.mp hvalue)
  | case2 => cases hs
  | case3 _ _ _ ih | case4 _ _ ih => exact ih (by simpa using h) hs

end Postfix

end

/-! ## Evaluation -/

namespace Environment

variable {operation : Operation} {operands : List Expr} {items : List (PostfixItem Expr)}
  {stack : List Expr}

/-- An operation on readable operands gives a readable result, if any. -/
theorem yields_operateWith (h : ∀ operand ∈ operands, Canonical .readable operand) :
    Yields .readable (standard.operateWith read operation operands) := by
  have hrules := Discipline.readable_admissible
  have hsuppress : ∀ {claim : Prop}, standard.mode.suppressErrors = true → claim :=
    fun h => by cases h
  unfold operateWith
  split <;> (try simp only [List.forall_mem_cons, List.not_mem_nil, false_imp_iff, implies_true,
    and_true] at h)
  · obtain ⟨total, htotal, hcanonical, -⟩ := Arithmetic.totals_add hrules h.1 h.2
    exact htotal ▸ .ok hcanonical
  · obtain ⟨total, htotal, hcanonical, -⟩ := Arithmetic.totals_subtract hrules h.1 h.2
    exact htotal ▸ .ok hcanonical
  · exact Arithmetic.yields_multiply hrules rfl h.1 h.2
  · exact Arithmetic.yields_divide hrules rfl hsuppress h.1 h.2
  · exact Arithmetic.yields_pow hrules rfl hsuppress h.1 h.2
  · exact .ok (Arithmetic.canonical_negate hrules h)
  · exact Arithmetic.yields_invert hrules rfl hsuppress h
  · exact .ok h
  · exact yields_callWith (by simpa using h)
  · exact yields_callWith (by simpa using h)
  · exact Arithmetic.yields_multiply hrules rfl h (.number _)
  · exact .error _

/-- Items with readable operands have a readable value, if any. -/
theorem yields_evaluateItems (hitems : Operands (Canonical .readable) items)
    (hstack : ∀ operand ∈ stack, Canonical .readable operand) :
    Yields .readable (standard.evaluateItems read stack items) := by
  induction items generalizing stack with
  | nil =>
      rw [evaluateItems.eq_def]
      cases stack with
      | nil => exact .error _
      | cons value rest => exact .ok (hstack value List.mem_cons_self)
  | cons item items ih =>
      cases item with
      | operand value =>
          obtain ⟨hvalue, hitems⟩ := operands_operand.mp hitems
          exact ih hitems (List.forall_mem_cons.mpr ⟨hvalue, hstack⟩)
      | operator operator =>
          refine .bind fun value hvalue => ih (by simpa using hitems)
            (List.forall_mem_cons.mpr
              ⟨?_, fun operand h => hstack operand (List.mem_of_mem_drop h)⟩)
          exact yields_operateWith (fun operand h =>
            hstack operand (List.mem_of_mem_take (List.mem_reverse.mp h))) value hvalue
      | call name count =>
          refine .bind fun value hvalue => ih (by simpa using hitems)
            (List.forall_mem_cons.mpr
              ⟨?_, fun operand h => hstack operand (List.mem_of_mem_drop h)⟩)
          exact yields_callWith (fun operand h =>
            hstack operand (List.mem_of_mem_take (List.mem_reverse.mp h))) value hvalue
      | missingProduct => exact .error _

theorem supplies_grammar :
    (standard.grammar read .standard []).Supplies (Canonical .readable) where
  number h := by
    obtain ⟨value, -, hvalue⟩ := exists_of_bind h
    cases hvalue
    exact .number value
  name {name position value} hname h := by
    cases hfree : FunctionTable.standard.contains name with
    | true =>
        have hfunction : standard.functions.contains name = true := hfree
        simp [grammar, operand, hfunction] at h
    | false =>
        have hoperand : standard.operand read [] name position = .ok value := h
        rw [operand_standard read hfree] at hoperand
        cases hoperand
        exact .symbol one_ne_zero one_ne_zero ⟨hname, hfree, fun _ _ => rfl⟩

theorem yields_readWith : Yields .readable (standard.readWith read .standard [] text) := by
  refine .bind fun tokens htokens => ?_
  have hnames := Token.isName_of_mem_scan htokens
  split_ifs
  · exact .error _
  refine .bind fun items hitems => yields_evaluateItems ?_ (by simp)
  obtain ⟨state, hstate, hfinish⟩ := exists_of_bind hitems
  split_ifs at hfinish
  exact Postfix.operands_finish
    (Postfix.operands_convert supplies_grammar hnames operands_nil hstate) hfinish

/-- What a text denotes in the standard environment is readable. -/
theorem canonical_of_readText (h : standard.readText [] text = .ok node) :
    Canonical .readable node :=
  yields_readWith node h

end Environment

end ExactAlgebra
