import ExactAlgebra.Proofs.Reading.Graft
import ExactAlgebra.Proofs.Reading.Inline

/-!
# Substitution

A text with a substitution for a name has the value of the text in which what is substituted
stands in brackets.  Brackets isolate it: precedence sees an operand in both cases, and its
postorder leaves the substituted value on the stack.
-/

namespace ExactAlgebra

open Phrase Postfix SyntaxTree Token

variable {α : Type}

/-! ## Conversion -/

/-- A grammar in which a number without digits, which no text has, stands for a value. -/
def Grammar.marking (scope : Grammar α) (value : α) : Grammar α :=
  { scope with number := fun text => if text = "" then .ok value else scope.number text }

theorem Grammar.marking_number_empty (scope : Grammar α) (value : α) :
    (scope.marking value).number "" = .ok value := rfl

theorem Grammar.marking_number {text : String} (h : text ≠ "") (scope : Grammar α) (value : α) :
    (scope.marking value).number text = scope.number text := if_neg h

namespace Token

variable {scope : Grammar α} {isFunction : String → Bool} {name : String} {token : Token}
  {rest : List Token} {called : Bool}

theorem marked_of_kind_ne (h : token.kind ≠ .name) (rest : List Token) :
    marked isFunction name (token :: rest) = token :: marked isFunction name rest := by
  rw [marked, if_neg]
  simp [isOperandNamed, h]

/-- A name is an operand unless it is the head of a call. -/
theorem isOperandNamed_of_isCall (hkind : token.kind = .name)
    (hcall : isCall scope token rest.head? = .ok called) :
    isOperandNamed scope.isFunction name token rest = (token.text == name && !called) := by
  rw [isOperandNamed, hkind, beq_self_eq_true, Bool.true_and]
  by_cases hname : token.text = name
  · subst hname
    cases hhead : rest.head? with
    | none =>
        rw [hhead] at hcall
        cases hcall
        simp
    | some next =>
        rw [hhead, isCall] at hcall
        split_ifs at hcall with hother hfunction <;> cases hcall
        · simp [hother]
        · simp [not_not.mp hother, hfunction]
        · simp [hfunction]
  · rw [beq_false_of_ne hname, Bool.false_and, Bool.false_and]

/-- Marking makes no call and takes none away. -/
theorem isCall_marked (hcall : isCall scope token rest.head? = .ok called) :
    isCall scope token (marked isFunction name rest).head? = .ok called := by
  cases rest with
  | nil => exact hcall
  | cons next others =>
      rw [marked, List.head?_cons]
      split_ifs with hoperand
      · rw [List.head?_cons, isCall, if_pos (by simp [kind_of_isOperandNamed hoperand])] at hcall
        rw [isCall, if_pos (by simp), hcall]
      · exact hcall

end Token

namespace Environment

variable {env : Environment} {read : Reader} {table : OperatorTable} {name : String}
  {value : Expr} {product : Operator} {index : Nat} {s s' : Conversion Expr} {tokens : List Token}

theorem operand_self (position : Nat) :
    env.operand read [(name, value)] name position = .ok value := by
  simp [operand]

theorem operand_of_ne {other : String} (h : other ≠ name) (position : Nat) :
    env.operand read [(name, value)] other position = env.operand read [] other position := by
  have hname : (name == other) = false := by simpa using h.symm
  simp [operand, hname]

/-- A substitution for a name is the same as a value for the marks in place of its operands. -/
theorem convert_marked (hproduct : table.find? "*" .between = some product)
    (hne : ∀ token ∈ tokens, token.text ≠ "")
    (hs : convert (env.grammar read table [(name, value)]) index s tokens = .ok s') :
    convert ((env.grammar read table []).marking value) index s
      (marked env.functions.contains name tokens) = .ok s' := by
  have hsubstituted : (env.grammar read table [(name, value)]).table.find? "*" .between =
    some product := hproduct
  have hmarking : ((env.grammar read table []).marking value).table.find? "*" .between =
    some product := hproduct
  induction index, s, tokens using convert.induct with
  | case1 => exact hs
  | case2 index s token rest ihNumber ihName ihOpening ihOther =>
      obtain ⟨htoken, hrest⟩ := List.forall_mem_cons.mp hne
      cases hkind : token.kind with
      | number =>
          rw [convert_of_number hsubstituted index s hkind] at hs
          obtain ⟨operand, hoperand, hs⟩ := exists_of_bind hs
          rw [marked_of_kind_ne (by simp [hkind]), convert_of_number hmarking index s hkind,
            Grammar.marking_number htoken]
          exact bind_eq_ok hoperand (ihNumber _ operand hrest hs)
      | name =>
          obtain ⟨called, hcall⟩ := exists_isCall_of_convert hsubstituted hkind hs
          have hoperand : isOperandNamed env.functions.contains name token rest =
            (token.text == name && !called) := isOperandNamed_of_isCall hkind hcall
          -- a call keeps its head; else the name is marked, or no substitution is for it
          cases called with
          | true =>
              rw [Bool.not_true, Bool.and_false] at hoperand
              cases rest with
              | nil => cases hcall
              | cons next others =>
                  obtain ⟨hopening, -⟩ := isCall_eq_true hcall
                  rw [convert_of_call hsubstituted index s hkind hcall] at hs
                  rw [marked, hoperand, marked_of_kind_ne (by simp [hopening]),
                    if_neg Bool.false_ne_true, convert_of_call hmarking index s hkind hcall]
                  exact (ihName _).1 (List.forall_mem_cons.mp hrest).2 hs
          | false =>
              rw [Bool.not_false, Bool.and_true] at hoperand
              rw [convert_of_name hsubstituted index s hkind rest hcall] at hs
              obtain ⟨operand, hvalue, hs⟩ := exists_of_bind hs
              have hnext : convert ((env.grammar read table []).marking value) (index + 1)
                  (putOperand operand (join product s))
                  (marked env.functions.contains name rest) = .ok s' := by
                cases rest with
                | nil => exact hs
                | cons next others => exact (ihName _).2 operand hrest hs
              rw [marked, hoperand]
              by_cases hname : token.text = name
              · rw [if_pos (by simpa using hname), convert_of_number hmarking index s rfl,
                  Grammar.marking_number_empty]
                obtain rfl : value = operand :=
                  Except.ok.inj ((operand_self token.position).symm.trans (hname ▸ hvalue))
                exact hnext
              · rw [if_neg (by simpa using hname),
                  convert_of_name hmarking index s hkind _ (isCall_marked hcall)]
                exact bind_eq_ok ((operand_of_ne hname _).symm.trans hvalue) hnext
      | opening =>
          rw [convert_of_opening hsubstituted index s hkind] at hs
          rw [marked_of_kind_ne (by simp [hkind]), convert_of_opening hmarking index s hkind]
          exact ihOpening _ hrest hs
      | operators =>
          rw [convert_of_operators _ index s hkind] at hs
          obtain ⟨after, hafter, hs⟩ := exists_of_bind hs
          rw [marked_of_kind_ne (by simp [hkind]), convert_of_operators _ index s hkind]
          exact bind_eq_ok hafter (ihOther _ hrest hs)
      | comma =>
          rw [convert_of_comma _ index s hkind] at hs
          obtain ⟨after, hafter, hs⟩ := exists_of_bind hs
          rw [marked_of_kind_ne (by simp [hkind]), convert_of_comma _ index s hkind]
          exact bind_eq_ok hafter (ihOther _ hrest hs)
      | closing =>
          rw [convert_of_closing _ index s hkind] at hs
          obtain ⟨after, hafter, hs⟩ := exists_of_bind hs
          rw [marked_of_kind_ne (by simp [hkind]), convert_of_closing _ index s hkind]
          exact bind_eq_ok hafter (ihOther _ hrest hs)

/-- The order that a text has with a substitution is that of its marked tokens. -/
theorem ofTokens_marked (hproduct : table.find? "*" .between = some product)
    (hne : ∀ token ∈ tokens, token.text ≠ "") {length : Nat} {items : List (PostfixItem Expr)}
    (h : ofTokens (env.grammar read table [(name, value)]) tokens length = .ok items) :
    ofTokens ((env.grammar read table []).marking value)
      (marked env.functions.contains name tokens) length = .ok items := by
  obtain ⟨state, hstate, h⟩ := exists_of_bind h
  exact bind_eq_ok (convert_marked hproduct hne hstate) h

end Environment

/-! ## Atoms -/

namespace Token

variable {isFunction : String → Bool} {name : String} {token : Token} {tokens body : List Token}
  {blank : Bool}

theorem mem_of_mem_marked (h : token ∈ marked isFunction name tokens)
    (hkind : token.kind ≠ .number) : token ∈ tokens := by
  induction tokens with
  | nil => exact h
  | cons first rest ih =>
      rw [marked] at h
      rcases List.mem_cons.mp h with rfl | hrest
      · split_ifs at hkind ⊢
        · exact absurd rfl hkind
        · exact List.mem_cons_self
      · exact List.mem_cons_of_mem _ (ih hrest)

/-- Between a name and a mark there is a blank. -/
theorem isChain_marked
    (h : tokens.IsChain fun a b => a.kind = .name → b.kind = .name → b.spaced = true)
    (hne : ∀ token ∈ tokens, token.text ≠ "") :
    (marked isFunction name tokens).IsChain fun a b =>
      a.kind = .name → b.kind = .number → b.text = "" → b.spaced = true := by
  induction tokens with
  | nil => exact .nil
  | cons first rest ih =>
      obtain ⟨hfirst, hrest⟩ := List.isChain_cons.mp h
      obtain ⟨-, hne⟩ := List.forall_mem_cons.mp hne
      rw [marked]
      refine List.isChain_cons.mpr ⟨fun next hnext hname hnumber htext => ?_, ih hrest hne⟩
      split_ifs at hname with hoperand
      cases rest with
      | nil => cases hnext
      | cons second others =>
          have hsecond := hfirst second rfl hname
          rw [marked] at hnext
          split_ifs at hnext with hmark <;> cases hnext
          · exact hsecond (kind_of_isOperandNamed hmark)
          · exact absurd htext (hne next List.mem_cons_self)

/-- Tokens that are equal up to their places. -/
theorem eq_of_unplaced_eq {token' : Token} (h : unplaced token' = unplaced token) :
    token'.kind = token.kind ∧ token'.text = token.text ∧ token'.spaced = token.spaced := by
  simpa [unplaced] using h

theorem expanded_of_kind_ne (h : token.kind ≠ .number) (body : List Token) (blank : Bool) :
    expanded body blank token = [token] :=
  if_neg fun hmark => h hmark.1

/-- A bracket at the start of expanded tokens has been there, or stands for a mark. -/
theorem spaced_of_expanded {next : Token}
    (hnext : next ∈ (tokens.flatMap (expanded body blank)).head?) (hkind : next.kind = .opening) :
    ∃ first ∈ tokens.head?, first.spaced = next.spaced ∧
      (first.kind = .opening ∨ first.kind = .number ∧ first.text = "") := by
  cases tokens with
  | nil => cases hnext
  | cons first rest =>
      refine ⟨first, rfl, ?_⟩
      rw [List.flatMap_cons, expanded] at hnext
      split_ifs at hnext with hmark <;> cases hnext
      · exact ⟨rfl, .inr hmark⟩
      · exact ⟨rfl, .inl hkind⟩

end Token

section

variable {scope : Grammar α} {expecting : Bool} {tokens tokens' more body : List Token}
  {atoms others inner : List (Atom α)} {value : α}

/-- Tokens stand for the same atoms when others follow, unless they start with a bracket. -/
theorem Splits.append (h : Splits scope expecting tokens atoms)
    (hhead : ∀ next ∈ more.head?, next.kind ≠ .opening)
    (hmore : ∀ expecting, Splits scope expecting more others) :
    Splits scope expecting (tokens ++ more) (atoms ++ others) := by
  induction h with
  | nil expecting => exact hmore expecting
  | number hkind hvalue _ ih => exact .number hkind hvalue ih
  | @name _ token rest _ _ hkind hfree hspaced hvalue _ ih =>
      refine .name hkind hfree (fun next hnext hopening => ?_) hvalue ih
      cases rest with
      | nil => exact absurd hopening (hhead next hnext)
      | cons first rest => exact hspaced next hnext hopening
  | call hkind hfunction hopening _ ih => exact .call hkind hfunction hopening ih
  | opening hkind _ ih => exact .opening hkind ih
  | closing hkind _ ih => exact .closing hkind ih
  | comma hkind _ ih => exact .comma hkind ih
  | run hkind hrun _ ih =>
      rw [List.append_assoc]
      exact .run hkind hrun ih

/-- Tokens stand for the same atoms elsewhere. -/
theorem Splits.of_unplaced
    (hplace : ∀ {text place value}, scope.name text place = .ok value →
      ∀ place', scope.name text place' = .ok value)
    (h : Splits scope expecting tokens atoms)
    (hsame : tokens'.map unplaced = tokens.map unplaced) :
    Splits scope expecting tokens' atoms := by
  induction h generalizing tokens' with
  | nil expecting =>
      obtain rfl := List.map_eq_nil_iff.mp hsame
      exact .nil expecting
  | number hkind hvalue _ ih =>
      obtain ⟨token', rest', rfl, htoken, hrest⟩ := List.map_eq_cons_iff.mp hsame
      obtain ⟨hkind', htext, -⟩ := eq_of_unplaced_eq htoken
      exact .number (hkind'.trans hkind) (htext ▸ hvalue) (ih hrest)
  | name hkind hfree hspaced hvalue _ ih =>
      obtain ⟨token', rest', rfl, htoken, hrest⟩ := List.map_eq_cons_iff.mp hsame
      obtain ⟨hkind', htext, -⟩ := eq_of_unplaced_eq htoken
      refine .name (hkind'.trans hkind) (htext ▸ hfree) (fun next hnext hopening => ?_)
        (hplace (htext ▸ hvalue) _) (ih hrest)
      have hhead := congrArg List.head? hrest
      rw [List.head?_map, List.head?_map, Option.mem_def.mp hnext] at hhead
      obtain ⟨first, hfirst, hnext⟩ := Option.map_eq_some_iff.mp hhead.symm
      obtain ⟨hkind, -, hsame⟩ := eq_of_unplaced_eq hnext
      exact hsame ▸ hspaced first hfirst (hkind.trans hopening)
  | call hkind hfunction hopening _ ih =>
      obtain ⟨token', tail, rfl, htoken, htail⟩ := List.map_eq_cons_iff.mp hsame
      obtain ⟨next', rest', rfl, hnext, hrest⟩ := List.map_eq_cons_iff.mp htail
      obtain ⟨hkind', htext, -⟩ := eq_of_unplaced_eq htoken
      rw [← htext]
      exact .call (hkind'.trans hkind) (htext ▸ hfunction)
        ((eq_of_unplaced_eq hnext).1.trans hopening) (ih hrest)
  | opening hkind _ ih =>
      obtain ⟨token', rest', rfl, htoken, hrest⟩ := List.map_eq_cons_iff.mp hsame
      exact .opening ((eq_of_unplaced_eq htoken).1.trans hkind) (ih hrest)
  | closing hkind _ ih =>
      obtain ⟨token', rest', rfl, htoken, hrest⟩ := List.map_eq_cons_iff.mp hsame
      exact .closing ((eq_of_unplaced_eq htoken).1.trans hkind) (ih hrest)
  | comma hkind _ ih =>
      obtain ⟨token', rest', rfl, htoken, hrest⟩ := List.map_eq_cons_iff.mp hsame
      exact .comma ((eq_of_unplaced_eq htoken).1.trans hkind) (ih hrest)
  | run hkind hrun _ ih =>
      obtain ⟨token', rest', rfl, htoken, hrest⟩ := List.map_eq_cons_iff.mp hsame
      obtain ⟨hkind', htext, -⟩ := eq_of_unplaced_eq htoken
      exact .run (hkind'.trans hkind) (htext ▸ hrun) (ih hrest)

/-- Marked tokens stand for atoms; with tokens in brackets in place of the marks, they stand for
the atoms with those of a body in brackets in place of some operands. -/
theorem Splits.exists_expanded (hbody : Splits scope true body inner) (blank : Bool)
    (h : Splits (scope.marking value) expecting tokens atoms)
    (hchain : tokens.IsChain fun a b =>
      a.kind = .name → b.kind = .number → b.text = "" → b.spaced = true) :
    ∃ atoms', Splits scope expecting (tokens.flatMap (expanded body blank)) atoms' ∧
      Replaced (.operand value) (.opening :: inner ++ [.closing]) atoms atoms' := by
  induction h with
  | nil expecting => exact ⟨[], .nil expecting, .nil⟩
  | @number _ token rest atoms other hkind hvalue _ ih =>
      obtain ⟨atoms', hsplits, hreplaced⟩ := ih (List.isChain_cons.mp hchain).2
      by_cases htext : token.text = ""
      · rw [htext, Grammar.marking_number_empty] at hvalue
        obtain rfl := Except.ok.inj hvalue
        refine ⟨_, ?_, .replace hreplaced⟩
        rw [List.flatMap_cons, expanded, if_pos ⟨hkind, htext⟩, List.append_assoc,
          List.append_assoc]
        exact .opening rfl (hbody.append (by simp) fun _ => .closing rfl hsplits)
      · rw [Grammar.marking_number htext] at hvalue
        refine ⟨_, ?_, .keep _ hreplaced⟩
        rw [List.flatMap_cons, expanded, if_neg fun hmark => htext hmark.2]
        exact .number hkind hvalue hsplits
  | @name _ token rest atoms other hkind hfree hspaced hvalue _ ih =>
      obtain ⟨hfirst, hrest⟩ := List.isChain_cons.mp hchain
      obtain ⟨atoms', hsplits, hreplaced⟩ := ih hrest
      refine ⟨_, ?_, .keep _ hreplaced⟩
      rw [List.flatMap_cons, expanded_of_kind_ne (by simp [hkind])]
      refine .name hkind hfree (fun next hnext hopening => ?_) hvalue hsplits
      obtain ⟨first, hmem, hsame, hcase⟩ := spaced_of_expanded hnext hopening
      rw [← hsame]
      rcases hcase with hbracket | ⟨hnumber, htext⟩
      · exact hspaced first hmem hbracket
      · exact hfirst first hmem hkind hnumber htext
  | @call _ token next rest atoms hkind hfunction hopening _ ih =>
      have hrest := (List.isChain_cons.mp (List.isChain_cons.mp hchain).2).2
      obtain ⟨atoms', hsplits, hreplaced⟩ := ih hrest
      refine ⟨_, ?_, .keep _ hreplaced⟩
      rw [List.flatMap_cons, List.flatMap_cons, expanded_of_kind_ne (by simp [hkind]),
        expanded_of_kind_ne (by simp [hopening])]
      exact .call hkind hfunction hopening hsplits
  | opening hkind _ ih =>
      obtain ⟨atoms', hsplits, hreplaced⟩ := ih (List.isChain_cons.mp hchain).2
      refine ⟨_, ?_, .keep _ hreplaced⟩
      rw [List.flatMap_cons, expanded_of_kind_ne (by simp [hkind])]
      exact .opening hkind hsplits
  | closing hkind _ ih =>
      obtain ⟨atoms', hsplits, hreplaced⟩ := ih (List.isChain_cons.mp hchain).2
      refine ⟨_, ?_, .keep _ hreplaced⟩
      rw [List.flatMap_cons, expanded_of_kind_ne (by simp [hkind])]
      exact .closing hkind hsplits
  | comma hkind _ ih =>
      obtain ⟨atoms', hsplits, hreplaced⟩ := ih (List.isChain_cons.mp hchain).2
      refine ⟨_, ?_, .keep _ hreplaced⟩
      rw [List.flatMap_cons, expanded_of_kind_ne (by simp [hkind])]
      exact .comma hkind hsplits
  | run hkind hrun _ ih =>
      obtain ⟨atoms', hsplits, hreplaced⟩ := ih (List.isChain_cons.mp hchain).2
      refine ⟨_, ?_, (Replaced.refl ..).append hreplaced⟩
      rw [List.flatMap_cons, expanded_of_kind_ne (by simp [hkind])]
      exact .run hkind hrun hsplits

end

/-! ## Texts -/

namespace Environment

variable {env : Environment} {read : Reader} {table : OperatorTable}
  {substitutions : Substitutions} {text body name : String} {value node : Expr}

/-- The value of a text is that of the postfix order of its tokens. -/
theorem readWith_eq_ok_iff :
    env.readWith read table substitutions text = .ok node ↔
      ∃ tokens items, env.tokens table text = .ok tokens ∧
        ofTokens (env.grammar read table substitutions) tokens text.length = .ok items ∧
        env.evaluateItems read [] items = .ok node := by
  constructor
  · intro h
    obtain ⟨tokens, htokens, h⟩ := exists_of_bind h
    cases tokens with
    | nil => cases h
    | cons first rest =>
        obtain ⟨items, hitems, hvalue⟩ := exists_of_bind h
        exact ⟨first :: rest, items, htokens, hitems, hvalue⟩
  · rintro ⟨tokens, items, htokens, hitems, hvalue⟩
    refine bind_eq_ok htokens ?_
    cases tokens with
    | nil => cases hitems
    | cons first rest => exact bind_eq_ok hitems hvalue

/-- A text with brackets in place of the operands with a name has the value that it has if the name
stands for the value of what is in the brackets. -/
theorem readWith_inlineFrom (hletters : env.settings.extraLetters = []) {tokens : List Token}
    (hbody : env.readWith read .standard [] body = .ok value)
    (htext : env.readWith read .standard [(name, value)] text = .ok node)
    (htokens : env.tokens .standard text = .ok tokens) :
    env.readWith read .standard [] (String.ofList
      (inlineFrom env.functions.contains name body.toList 0 text.toList tokens)) = .ok node := by
  have hproduct : OperatorTable.standard.find? "*" .between = some multiplying := by decide
  have hmarking : ((env.grammar read .standard []).marking value).table.find? "*" .between =
    some multiplying := hproduct
  have halphabet : env.alphabet .standard = standardAlphabet := by
    simp only [alphabet, hletters]
    rfl
  obtain ⟨bodyTokens, bodyItems, hbodyTokens, hbodyItems, hvalue⟩ := readWith_eq_ok_iff.mp hbody
  obtain ⟨found, items, hfound, hitems, hnode⟩ := readWith_eq_ok_iff.mp htext
  obtain rfl : tokens = found := Except.ok.inj (htokens.symm.trans hfound)
  rw [Environment.tokens, Token.ofText, halphabet] at hbodyTokens htokens
  have hbodyLexed := spec_of_mem_scan hbodyTokens
  have hlexed := spec_of_mem_scan htokens
  have hne : ∀ token ∈ tokens, token.text ≠ "" := fun token htoken hempty =>
    (hlexed token htoken).1.ne (by rw [hempty]; rfl)
  -- what is in the brackets has a tree, and the text with marks has one
  obtain ⟨inner, hinner, hinnerSplits, rfl⟩ := (ofTokens_eq_ok_iff hproduct (free_of_operand read)
    (fun token htoken _ => (hbodyLexed token htoken).1.ne) body.length).mp hbodyItems
  obtain ⟨tree, htree, hsplits, rfl⟩ := (ofTokens_eq_ok_iff hmarking (free_of_operand read)
    (fun token htoken hkind =>
      (hlexed token (mem_of_mem_marked htoken (by simp [hkind]))).1.ne) text.length).mp
    (ofTokens_marked hproduct hne hitems)
  -- brackets in place of the marks give another tree with the same value
  obtain ⟨blank, hscan⟩ := exists_scan_inlineFrom env.functions.contains name hbodyTokens
  obtain ⟨tokens', htokens', hsame⟩ := hscan htokens 0
  obtain ⟨atoms, hexpanded, hreplaced⟩ := hinnerSplits.exists_expanded blank hsplits
    (isChain_marked (isChain_of_scan htokens) hne)
  obtain ⟨tree', rfl, hgrafted⟩ := hinner.exists_grafted htree rfl hreplaced
  have hlexed' := spec_of_mem_scan htokens'
  refine readWith_eq_ok_iff.mpr ⟨tokens', tree'.postorder, ?_, ?_, ?_⟩
  · rw [Environment.tokens, Token.ofText, halphabet, String.toList_ofList]
    exact htokens'
  · exact (ofTokens_eq_ok_iff hproduct (free_of_operand read)
      (fun token htoken _ => (hlexed' token htoken).1.ne) _).mpr
      ⟨tree', hgrafted.grouped, hexpanded.of_unplaced operand_of_place hsame, rfl⟩
  · rw [evaluateItems_of_replaced (replay_postorder hinner hvalue) hgrafted.postorder]
    exact hnode

/-- A text with a text in brackets in place of the operands with a name has the value that the
first text has with the other one as a substitution for the name. -/
theorem readText_inlined {substitutions : Substitutions} (hoperators : env.operators = .standard)
    (hletters : env.settings.extraLetters = [])
    (hsubstitutions : env.substitutionsOf [(name, .text body)] = .ok substitutions)
    (hread : env.readText substitutions text = .ok node) :
    ∃ inlined, env.inlined name body text = .ok inlined ∧ env.readText [] inlined = .ok node := by
  obtain ⟨value, hbody, rfl⟩ : ∃ value, env.readText [] body = .ok value ∧
      substitutions = [(name, value)] := by
    rw [substitutionsOf, List.mapM_cons, List.mapM_nil] at hsubstitutions
    obtain ⟨entry, hentry, h⟩ := exists_of_bind hsubstitutions
    obtain ⟨value, hvalue, hpair⟩ := exists_of_bind hentry
    cases hpair
    cases h
    exact ⟨value, hvalue, rfl⟩
  have hunfold (substitutions : Substitutions) (text : String) : env.readText substitutions text =
      env.readWith (readNested 127) .standard substitutions text := by
    rw [← hoperators]
    rfl
  rw [hunfold] at hbody hread
  obtain ⟨tokens, -, htokens, -⟩ := readWith_eq_ok_iff.mp hread
  refine ⟨String.ofList
    (inlineFrom env.functions.contains name body.toList 0 text.toList tokens), ?_, ?_⟩
  · rw [inlined, hoperators]
    exact bind_eq_ok htokens rfl
  · rw [hunfold]
    exact readWith_inlineFrom hletters hbody hread htokens

/-- A sum in place of the three operands of `2x-x x`. -/
theorem readText_inlined_square :
    ∃ substitutions node,
      standard.substitutionsOf [("x", .text "y+1")] = .ok substitutions ∧
      standard.readText substitutions "2x-x x" = .ok node ∧
      standard.readText [] "2(y+1)-(y+1) (y+1)" = .ok node := by
  have hvalue : ((standard.substitutionsOf [("x", .text "y+1")] >>= fun substitutions =>
      standard.readText substitutions "2x-x x").toOption).isSome = true := by decide +kernel
  have htext : standard.inlined "x" "y+1" "2x-x x" = .ok "2(y+1)-(y+1) (y+1)" := by
    decide +kernel
  cases hread : standard.substitutionsOf [("x", .text "y+1")] >>= fun substitutions =>
      standard.readText substitutions "2x-x x" with
  | error fault => simp [hread, Except.toOption] at hvalue
  | ok node =>
      obtain ⟨substitutions, hsubstitutions, hnode⟩ := exists_of_bind hread
      obtain ⟨inlined, hinlined, hagain⟩ := readText_inlined rfl rfl hsubstitutions hnode
      obtain rfl := Except.ok.inj (htext.symm.trans hinlined)
      exact ⟨substitutions, node, hsubstitutions, hnode, hagain⟩

end Environment

end ExactAlgebra
