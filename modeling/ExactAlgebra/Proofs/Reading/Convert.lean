import ExactAlgebra.Proofs.Reading.Phrase

/-!
# Postfix order of phrases

Reading the lexemes of a phrase leaves its last operators waiting on the stack.  Whatever
may follow the phrase applies them first, so that for all that follows the phrase has been
put out in postfix order.
-/

namespace ExactAlgebra

open Postfix Phrase

/-- What a grammar makes of numbers and names in the standard notation. -/
structure Grammar.Reads (scope : Grammar Expr) (env : Environment) : Prop where
  table : scope.table = .standard
  isFunction : scope.isFunction = env.functions.contains
  accepts : scope.accepts = env.functions.accepts
  number : ∀ value : Nat, scope.number (toString value) = .ok (.number value)
  name : ∀ text position, env.functions.contains text = false →
    scope.name text position = .ok (.named text)

namespace Postfix

variable {scope : Grammar Expr} {env : Environment} {level : Int} {operator next : Operator}
  {output : List (PostfixItem Expr)} {stack : List Waiting} {s s' s'' : Conversion Expr}

/-! ## Waiting operators -/

/-- An operator that is read after operators of at least the given precedence are applied. -/
def Closes (next : Operator) (level : Int) : Prop :=
  next.role = .between ∧ (next.precedence < level ∨
    (next.precedence = level ∧ next.associativity = .left))

/-- A stack on top of which no operator waits that is applied before operators of at least
the given precedence. -/
def Holds (stack : List Waiting) (level : Int) : Prop :=
  ∀ next : Operator, next.role = .between → level ≤ next.precedence →
    ∀ output : List (PostfixItem Expr), yield next output stack = (output, stack)

/-- Two states that agree after all operators of at least the given precedence. -/
structure Settles (level : Int) (s s' : Conversion Expr) : Prop where
  expecting : s.expecting = false ∧ s'.expecting = false
  yield : ∀ next, Closes next level → yield next s.output s.stack = yield next s'.output s'.stack
  unwind : unwind s.output s.stack = unwind s'.output s'.stack
  finish : finish s.output s.stack = finish s'.output s'.stack

theorem Settles.refl (h : s.expecting = false) : Settles level s s :=
  ⟨⟨h, h⟩, fun _ _ => rfl, rfl, rfl⟩

theorem Settles.trans (h : Settles level s s') (h' : Settles level s' s'') : Settles level s s'' :=
  ⟨⟨h.expecting.1, h'.expecting.2⟩,
    fun next hnext => (h.yield next hnext).trans (h'.yield next hnext),
    h.unwind.trans h'.unwind, h.finish.trans h'.finish⟩

theorem Settles.mono {level' : Int} (h : Settles level s s') (hlevel : level' ≤ level) :
    Settles level' s s' :=
  { h with
    yield := fun next ⟨hrole, hnext⟩ => h.yield next ⟨hrole, by
      rcases hnext with hlt | ⟨heq, hleft⟩
      · exact .inl (by omega)
      · rcases hlevel.lt_or_eq with hlt | hle
        · exact .inl (by omega)
        · exact .inr ⟨by omega, hleft⟩⟩ }

@[simp] theorem yield_operator (next operator : Operator) (output : List (PostfixItem Expr))
    (stack : List Waiting) : yield next output (.operator operator :: stack) =
      if operator.yieldsTo next then yield next (.operator operator :: output) stack
      else (output, .operator operator :: stack) := rfl

theorem yieldsTo_of_closes (hlevel : level ≤ operator.precedence)
    (h : Closes next level) : operator.yieldsTo next = true := by
  obtain ⟨hrole, hnext⟩ := h
  unfold Operator.yieldsTo
  rw [hrole]
  cases hoperator : operator.role with
  | after => rfl
  | between | before =>
      all_goals
        cases hassociativity : next.associativity with
        | left => simp only [decide_eq_true_eq]; omega
        | right =>
            simp only [hassociativity, reduceCtorEq, and_false, or_false] at hnext
            simp only [decide_eq_true_eq]
            omega

/-- An operator on top of the stack settles as if it were applied. -/
theorem settles_operator (operator : Operator) (output : List (PostfixItem Expr))
    (stack : List Waiting) :
    Settles operator.precedence ⟨output, .operator operator :: stack, false⟩
      ⟨.operator operator :: output, stack, false⟩ where
  expecting := ⟨rfl, rfl⟩
  yield next hnext := by
    rw [yield_operator, yieldsTo_of_closes le_rfl hnext, if_pos rfl]
  unwind := rfl
  finish := rfl

theorem holds_nil : Holds [] level := fun _ _ _ _ => rfl

theorem holds_bracket (bracket : Bracket) : Holds (.bracket bracket :: stack) level :=
  fun _ _ _ _ => rfl

theorem holds_operator (hlevel : operator.precedence < level) (hafter : operator.role ≠ .after) :
    Holds (.operator operator :: stack) level := by
  intro next hrole hnext output
  have hyields : operator.yieldsTo next = false := by
    unfold Operator.yieldsTo
    rw [hrole]
    cases hoperator : operator.role with
    | after => exact absurd hoperator hafter
    | between | before =>
        all_goals
          cases next.associativity <;> simp only [decide_eq_false_iff_not] <;> omega
  rw [yield_operator, hyields, if_neg Bool.false_ne_true]

/-! ## Single tokens -/

variable {token : Token} {rest : List Token} {index : Nat}

/-- What may follow an operand: an operator, a bracket or a comma that ends it, or nothing. -/
def Follows (rest : List Token) : Prop :=
  ∀ token ∈ rest.head?, token.kind ≠ .number ∧ token.kind ≠ .name ∧ token.kind ≠ .opening

theorem joinOperand_expecting (h : s.expecting = true) (kind : TokenKind) :
    joinOperand scope kind s = .ok s := by
  cases kind <;> simp [joinOperand, h]

section

variable {α : Type} (scope : Grammar α) (index : Nat) (s : Conversion α)

theorem convert_cons_number (hkind : token.kind = .number) (rest : List Token) :
    convert scope index s (token :: rest) =
      joinOperand scope .number s >>= fun s => scope.number token.text >>= fun value =>
        convert scope (index + 1) (putOperand value s) rest := by
  obtain ⟨kind, text, position, spaced⟩ := token
  cases hkind
  rfl

theorem convert_cons_name_nil (hkind : token.kind = .name) :
    convert scope index s [token] =
      joinOperand scope .name s >>= fun s => scope.name token.text token.position >>= fun value =>
        convert scope (index + 1) (putOperand value s) [] := by
  obtain ⟨kind, text, position, spaced⟩ := token
  cases hkind
  rfl

/-- A name before another token is read with the bracket of its call, or alone. -/
theorem convert_cons_name (hkind : token.kind = .name) (next : Token) (rest : List Token) :
    convert scope index s (token :: next :: rest) =
      joinOperand scope .name s >>= fun s => isCall scope token (some next) >>= fun called =>
        if called then
          convert scope (index + 2) (openBracket next.position (index + 1) (some token.text) s) rest
        else scope.name token.text token.position >>= fun value =>
          convert scope (index + 1) (putOperand value s) (next :: rest) := by
  obtain ⟨kind, text, position, spaced⟩ := token
  cases hkind
  rfl

theorem convert_cons_opening (hkind : token.kind = .opening) (rest : List Token) :
    convert scope index s (token :: rest) =
      joinOperand scope .opening s >>= fun s =>
        convert scope (index + 1) (openBracket token.position index none s) rest := by
  obtain ⟨kind, text, position, spaced⟩ := token
  cases hkind
  rfl

theorem convert_of_operators (hkind : token.kind = .operators) (rest : List Token) :
    convert scope index s (token :: rest) =
      readRun scope.table token.position token.text.toList s >>= fun s' =>
        convert scope (index + 1) s' rest := by
  obtain ⟨kind, text, position, spaced⟩ := token
  cases hkind
  rfl

theorem convert_of_comma (hkind : token.kind = .comma) (rest : List Token) :
    convert scope index s (token :: rest) =
      readComma token.position s >>= fun s' => convert scope (index + 1) s' rest := by
  obtain ⟨kind, text, position, spaced⟩ := token
  cases hkind
  rfl

theorem convert_of_closing (hkind : token.kind = .closing) (rest : List Token) :
    convert scope index s (token :: rest) =
      readClose scope index token.position s >>= fun s' =>
        convert scope (index + 1) s' rest := by
  obtain ⟨kind, text, position, spaced⟩ := token
  cases hkind
  rfl

end

theorem convert_number (h : scope.Reads env) (value : Nat) (hkind : token.kind = .number)
    (htext : token.text = toString value) :
    convert scope index ⟨output, stack, true⟩ (token :: rest) =
      convert scope (index + 1) ⟨.operand (.number value) :: output, stack, false⟩ rest := by
  rw [convert_cons_number scope index _ hkind, joinOperand_expecting rfl, htext]
  simp only [h.number, bind, Except.bind]
  rfl

theorem convert_name (h : scope.Reads env) (hkind : token.kind = .name)
    (hfree : env.functions.contains token.text = false) (hfollows : Follows rest) :
    convert scope index ⟨output, stack, true⟩ (token :: rest) =
      convert scope (index + 1) ⟨.operand (.named token.text) :: output, stack, false⟩ rest := by
  cases rest with
  | nil =>
      rw [convert_cons_name_nil scope index _ hkind, joinOperand_expecting rfl]
      simp only [h.name _ _ hfree, bind, Except.bind]
      rfl
  | cons next others =>
      have hopening := (hfollows next rfl).2.2
      have hcall : isCall scope token (some next) = .ok false := by
        simp only [isCall, ne_eq, hopening, not_false_eq_true, if_true]
      rw [convert_cons_name scope index _ hkind, joinOperand_expecting rfl]
      simp only [hcall, h.name _ _ hfree, bind, Except.bind]
      rfl

theorem convert_call (h : scope.Reads env) {next : Token} (hkind : token.kind = .name)
    (hnext : next.kind = .opening) (hfunction : env.functions.contains token.text = true) :
    convert scope index ⟨output, stack, true⟩ (token :: next :: rest) =
      convert scope (index + 2)
        ⟨output, .bracket ⟨next.position, index + 1, some token.text, 0⟩ :: stack, true⟩ rest := by
  have hcall : isCall scope token (some next) = .ok true := by
    simp [isCall, hnext, h.isFunction, hfunction]
  rw [convert_cons_name scope index _ hkind, joinOperand_expecting rfl]
  simp only [hcall, bind, Except.bind]
  rfl

theorem convert_opening (hkind : token.kind = .opening) :
    convert scope index ⟨output, stack, true⟩ (token :: rest) =
      convert scope (index + 1)
        ⟨output, .bracket ⟨token.position, index, none, 0⟩ :: stack, true⟩ rest := by
  rw [convert_cons_opening scope index _ hkind, joinOperand_expecting rfl]
  rfl

theorem prefixes_negation (position : Nat) :
    prefixes .standard position negation.symbol.toList = .ok [negation] := by
  have hlongest : OperatorTable.standard.longest? .before ['-'] = some (negation, []) := by decide
  rw [show negation.symbol.toList = ['-'] from rfl, prefixes]
  split
  next heq => simp [hlongest] at heq
  next operator rest heq =>
    simp only [hlongest, Option.some.injEq, Prod.mk.injEq] at heq
    obtain ⟨rfl, rfl⟩ := heq
    rw [prefixes]
    rfl

theorem convert_negation (h : scope.Reads env) (hkind : token.kind = .operators)
    (htext : token.text = negation.symbol) :
    convert scope index ⟨output, stack, true⟩ (token :: rest) =
      convert scope (index + 1) ⟨output, .operator negation :: stack, true⟩ rest := by
  rw [convert_of_operators scope index _ hkind]
  simp only [bind, Except.bind, readRun, if_true, h.table, htext, prefixes_negation]
  rfl

theorem readRun_infix (hoperator : operator ∈ infixes) (position : Nat) :
    readRun .standard position operator.symbol.toList ⟨output, stack, false⟩ =
      .ok ⟨(yield operator output stack).1, .operator operator :: (yield operator output stack).2,
        true⟩ := by
  have hlongest : OperatorTable.standard.longest? .after operator.symbol.toList = none ∧
      OperatorTable.standard.longest? .between operator.symbol.toList = some (operator, []) ∧
      operator.symbol.toList ≠ [] := by
    simp only [infixes, List.mem_cons, List.not_mem_nil, or_false] at hoperator
    rcases hoperator with rfl | rfl | rfl | rfl | rfl <;> decide
  obtain ⟨hafter, hbetween, hne⟩ := hlongest
  have hsuffixes : suffixes .standard position operator.symbol.toList =
      ([], position, operator.symbol.toList) := by
    rw [suffixes]
    split
    next => rfl
    next heq => simp [hafter] at heq
  have hprefixes : prefixes .standard (position + operator.symbol.length) [] = .ok [] := by
    rw [prefixes]
  simp only [readRun, Bool.false_eq_true, if_false, hsuffixes, List.isEmpty_iff, hne, hbetween,
    hprefixes, bind, Except.bind]
  rfl

/-- An operator between operands first applies those before it. -/
theorem convert_infix (h : scope.Reads env) (hoperator : operator ∈ infixes)
    (hkind : token.kind = .operators) (htext : token.text = operator.symbol)
    (hs : s.expecting = false) :
    convert scope index s (token :: rest) =
      convert scope (index + 1) ⟨(yield operator s.output s.stack).1,
        .operator operator :: (yield operator s.output s.stack).2, true⟩ rest := by
  obtain ⟨output, stack, expecting⟩ := s
  obtain rfl : expecting = false := hs
  rw [convert_of_operators scope index _ hkind, h.table, htext, readRun_infix hoperator]
  rfl

theorem convert_comma (scope : Grammar Expr) (index : Nat) (rest : List Token)
    {bracket : Bracket} {name : String} (hkind : token.kind = .comma)
    (hs : s.expecting = false)
    (hunwind : unwind s.output s.stack = some (bracket, output, stack))
    (hfunction : bracket.function = some name) :
    convert scope index s (token :: rest) =
      convert scope (index + 1)
        ⟨output, .bracket { bracket with commas := bracket.commas + 1 } :: stack, true⟩ rest := by
  rw [convert_of_comma scope index s hkind]
  simp only [bind, Except.bind, readComma, hs, Bool.false_eq_true, if_false, hunwind, hfunction]

theorem convert_closing (scope : Grammar Expr) (index : Nat) (rest : List Token)
    {bracket : Bracket} (hkind : token.kind = .closing)
    (hs : s.expecting = false)
    (hunwind : unwind s.output s.stack = some (bracket, output, stack))
    (hfunction : bracket.function = none) :
    convert scope index s (token :: rest) =
      convert scope (index + 1) ⟨output, stack, false⟩ rest := by
  rw [convert_of_closing scope index s hkind]
  simp only [bind, Except.bind, readClose, hs, Bool.false_eq_true, if_false, hunwind, hfunction]

theorem convert_closing_call (h : scope.Reads env) (rest : List Token) {bracket : Bracket}
    {name : String}
    (hkind : token.kind = .closing) (hs : s.expecting = false)
    (hunwind : unwind s.output s.stack = some (bracket, output, stack))
    (hfunction : bracket.function = some name) (hindex : bracket.index + 1 < index)
    (hcount : env.functions.accepts name (bracket.commas + 1) = true) :
    convert scope index s (token :: rest) =
      convert scope (index + 1) ⟨.call name (bracket.commas + 1) :: output, stack, false⟩ rest := by
  have hblank : (bracket.index + 1 == index) = false := beq_false_of_ne hindex.ne
  rw [convert_of_closing scope index s hkind]
  simp only [bind, Except.bind, readClose, hs, hunwind, hfunction, hblank, Bool.false_and,
    Bool.false_eq_true, if_false, h.accepts, hcount, if_true]

/-! ## Phrases -/

/-- Class and text of a token. -/
def lexeme (token : Token) : Lexeme := (token.kind, token.text)

theorem exists_token {tokens : List Token} {kind : TokenKind} {text : String}
    {lexemes : List Lexeme} (h : tokens.map lexeme = (kind, text) :: lexemes) :
    ∃ token others, tokens = token :: others ∧ token.kind = kind ∧ token.text = text ∧
      others.map lexeme = lexemes := by
  obtain ⟨token, others, rfl, htoken, hothers⟩ := List.map_eq_cons_iff.mp h
  simp only [lexeme, Prod.mk.injEq] at htoken
  exact ⟨token, others, rfl, htoken.1, htoken.2, hothers⟩

theorem exists_token_singleton {tokens : List Token} {kind : TokenKind} {text : String}
    (h : tokens.map lexeme = [(kind, text)]) :
    ∃ token, tokens = [token] ∧ token.kind = kind ∧ token.text = text := by
  obtain ⟨token, others, rfl, hkind, htext, hothers⟩ := exists_token h
  obtain rfl := List.map_eq_nil_iff.mp hothers
  exact ⟨token, rfl, hkind, htext⟩

theorem exists_tokens_enclosed {tokens : List Token} {lexemes : List Lexeme}
    (h : tokens.map lexeme = (.opening, "(") :: lexemes ++ [(.closing, ")")]) :
    ∃ opening inner close, tokens = opening :: (inner ++ [close]) ∧ opening.kind = .opening ∧
      close.kind = .closing ∧ inner.map lexeme = lexemes := by
  obtain ⟨opening, others, rfl, hopening, -, hothers⟩ := exists_token h
  obtain ⟨inner, last, rfl, hinner, hlast⟩ := List.map_eq_append_iff.mp hothers
  obtain ⟨close, rfl, hclose, -⟩ := exists_token_singleton hlast
  exact ⟨opening, inner, close, rfl, hopening, hclose, hinner⟩

/-- The tokens of a phrase are read as its postfix order, up to operators that wait. -/
def Converts (scope : Grammar Expr) (level : Int) (e : Phrase) : Prop :=
  ∀ (tokens rest : List Token) (index : Nat) (output : List (PostfixItem Expr))
    (stack : List Waiting), tokens.map lexeme = e.lexemes → Follows rest → Holds stack level →
    ∃ s, convert scope index ⟨output, stack, true⟩ (tokens ++ rest) =
        convert scope (index + tokens.length) s rest ∧
      Settles level s ⟨e.items.reverse ++ output, stack, false⟩ ∧ tokens ≠ []

theorem follows_cons (h : token.kind ≠ .number ∧ token.kind ≠ .name ∧ token.kind ≠ .opening) :
    Follows (token :: rest) := by
  simpa [Follows] using h

theorem Holds.mono {level' : Int} (h : Holds stack level) (hlevel : level ≤ level') :
    Holds stack level' :=
  fun next hrole hnext => h next hrole (hlevel.trans hnext)

variable {e a b : Phrase}

theorem converts_number (h : scope.Reads env) (value : Nat) :
    Converts scope level (.number value) := by
  intro tokens rest index output stack htokens _ _
  obtain ⟨token, rfl, hkind, htext⟩ := exists_token_singleton htokens
  exact ⟨_, convert_number h value hkind htext, .refl rfl, by simp⟩

theorem converts_name (h : scope.Reads env) {text : String}
    (hfree : env.functions.contains text = false) : Converts scope level (.name text) := by
  intro tokens rest index output stack htokens hfollows _
  obtain ⟨token, rfl, hkind, rfl⟩ := exists_token_singleton htokens
  exact ⟨_, convert_name h hkind hfree hfollows, .refl rfl, by simp⟩

theorem converts_bracket (hbody : Converts scope 1 e) : Converts scope level (.bracket e) := by
  intro tokens rest index output stack htokens _ _
  obtain ⟨opening, inner, close, rfl, hopening, hclose, hinner⟩ := exists_tokens_enclosed htokens
  obtain ⟨s, hs, hsettles, -⟩ := hbody inner (close :: rest) (index + 1) output
    (.bracket ⟨opening.position, index, none, 0⟩ :: stack) hinner
    (follows_cons (by simp [hclose])) (holds_bracket _)
  refine ⟨⟨e.items.reverse ++ output, stack, false⟩, ?_, .refl rfl, by simp⟩
  have hclosing := convert_closing scope (index + 1 + inner.length) rest hclose
    hsettles.expecting.1 hsettles.unwind rfl
  simp only [List.cons_append, List.append_assoc, List.nil_append]
  rw [convert_opening hopening, hs, hclosing]
  congr 1
  simp only [List.length_cons, List.length_append, List.length_nil]
  omega

/-- The arguments of a call, after those before them. -/
theorem convert_args {args : List Phrase} (hargs : ∀ arg ∈ args, Converts scope 1 arg)
    (hne : args ≠ []) {tokens rest : List Token} (htokens : tokens.map lexeme = argsLexemes args)
    (hrest : Follows rest) (index : Nat) (output : List (PostfixItem Expr)) {name : String}
    {bracket : Bracket} (hfunction : bracket.function = some name) :
    ∃ s, convert scope index ⟨output, .bracket bracket :: stack, true⟩ (tokens ++ rest) =
        convert scope (index + tokens.length) s rest ∧ s.expecting = false ∧
      unwind s.output s.stack = some ({ bracket with commas := bracket.commas + (args.length - 1) },
        (argsItems args).reverse ++ output, stack) ∧ tokens ≠ [] := by
  induction args generalizing tokens index output bracket with
  | nil => exact absurd rfl hne
  | cons arg more ih =>
      obtain ⟨harg, hmore⟩ := List.forall_mem_cons.mp hargs
      match more with
      | [] =>
          obtain ⟨s, hs, hsettles, htokensne⟩ := harg tokens rest index output _ htokens hrest
            (holds_bracket bracket)
          refine ⟨s, hs, hsettles.expecting.1, hsettles.unwind.trans ?_, htokensne⟩
          simp [argsItems, unwind]
      | second :: others =>
          rw [argsLexemes] at htokens
          swap
          · simp
          obtain ⟨first, last, rfl, hfirst, hlast⟩ := List.map_eq_append_iff.mp htokens
          obtain ⟨comma, others', rfl, hcomma, -, hothers⟩ := exists_token hlast
          obtain ⟨s, hs, hsettles, -⟩ := harg first (comma :: (others' ++ rest)) index output _
            hfirst (follows_cons (by simp [hcomma])) (holds_bracket bracket)
          have hstep := convert_comma scope (index + first.length) (others' ++ rest) hcomma
            hsettles.expecting.1 (hsettles.unwind.trans rfl) hfunction
          obtain ⟨s', hs', hexpecting, hunwind, -⟩ := ih hmore (by simp) hothers
            (index + first.length + 1) (arg.items.reverse ++ output)
            (show { bracket with commas := bracket.commas + 1 }.function = some name from hfunction)
          refine ⟨s', ?_, hexpecting, hunwind.trans ?_, by simp⟩
          · rw [List.append_assoc, List.cons_append, hs, hstep, hs']
            congr 1
            simp only [List.length_append, List.length_cons]
            omega
          · simp [argsItems]
            omega

theorem converts_call (h : scope.Reads env) {function : String} {args : List Phrase}
    (hfunction : env.functions.contains function = true)
    (hcount : env.functions.accepts function args.length = true) (hne : args ≠ [])
    (hargs : ∀ arg ∈ args, Converts scope 1 arg) : Converts scope level (.call function args) := by
  intro tokens rest index output stack htokens _ _
  obtain ⟨token, others, rfl, hkind, rfl, hothers⟩ := exists_token htokens
  obtain ⟨opening, inner, close, rfl, hopening, hclose, hinner⟩ := exists_tokens_enclosed hothers
  obtain ⟨s, hs, hexpecting, hunwind, hinnerne⟩ := convert_args hargs hne hinner
    (show Follows (close :: rest) from follows_cons (by simp [hclose])) (index + 2) output
    (show (⟨opening.position, index + 1, some token.text, 0⟩ : Bracket).function =
      some token.text from rfl)
  have hlength := List.length_pos_iff.mpr hinnerne
  have hargslength : 0 + (args.length - 1) + 1 = args.length := by
    have := List.length_pos_iff.mpr hne
    omega
  have hclosing := convert_closing_call h rest hclose
    hexpecting hunwind rfl
    (show index + 1 + 1 < index + 2 + inner.length by omega) (by simp only [hargslength, hcount])
  simp only [hargslength] at hclosing
  refine ⟨⟨.call token.text args.length :: ((argsItems args).reverse ++ output), stack, false⟩, ?_,
    ?_, by simp⟩
  · simp only [List.cons_append, List.append_assoc, List.nil_append]
    rw [convert_call h hkind hopening hfunction, hs, hclosing]
    congr 1
    simp only [List.length_cons, List.length_append, List.length_nil]
    omega
  · rw [Phrase.items, List.reverse_append]
    exact .refl rfl

theorem converts_negate (h : scope.Reads env) (hlevel : level ≤ 3) (hbody : Converts scope 4 e) :
    Converts scope level (.before negation e) := by
  intro tokens rest index output stack htokens hrest _
  obtain ⟨token, inner, rfl, hkind, htext, hinner⟩ := exists_token htokens
  obtain ⟨s, hs, hsettles, -⟩ := hbody inner rest (index + 1) output
    (.operator negation :: stack) hinner hrest (holds_operator (by decide) (by decide))
  refine ⟨s, ?_, ?_, by simp⟩
  · rw [List.cons_append, convert_negation h hkind htext, hs]
    congr 1
    simp only [List.length_cons]
    omega
  · have happlied := (hsettles.mono (by decide)).trans
      (settles_operator negation (e.items.reverse ++ output) stack)
    rw [Phrase.items, List.reverse_append]
    exact happlied.mono hlevel

theorem converts_between (h : scope.Reads env) {left right : Int} (hoperator : operator ∈ infixes)
    (ha : Converts scope left a) (hb : Converts scope right b)
    (hleft : operator.precedence < left ∨
      (operator.precedence = left ∧ operator.associativity = .left))
    (hright : operator.precedence < right) (hlevel : level ≤ operator.precedence) :
    Converts scope level (.between operator a b) := by
  intro tokens rest index output stack htokens hrest hholds
  have hrole := role_of_mem_infixes hoperator
  obtain ⟨first, others, rfl, hfirst, hothers⟩ := List.map_eq_append_iff.mp htokens
  obtain ⟨token, last, rfl, hkind, htext, hlast⟩ := exists_token hothers
  obtain ⟨s, hs, hsettles, hne⟩ := ha first (token :: (last ++ rest)) index output stack hfirst
    (follows_cons (by simp [hkind])) (hholds.mono (by omega))
  have hyield := (hsettles.yield operator ⟨hrole, hleft⟩).trans
    (hholds operator hrole hlevel (a.items.reverse ++ output))
  obtain ⟨s', hs', hsettles', -⟩ := hb last rest (index + first.length + 1)
    (a.items.reverse ++ output) (.operator operator :: stack) hlast hrest
    (holds_operator hright (by simp [hrole]))
  refine ⟨s', ?_, ?_, by simp⟩
  · rw [List.append_assoc, List.cons_append, hs,
      convert_infix h hoperator hkind htext hsettles.expecting.1, hyield, hs']
    congr 1
    simp only [List.length_append, List.length_cons]
    omega
  · have happlied := (hsettles'.mono (by omega)).trans
      (settles_operator operator (b.items.reverse ++ (a.items.reverse ++ output)) stack)
    simp only [Phrase.items, List.reverse_append, List.append_assoc]
    exact happlied.mono hlevel

/-- The tokens of a well-formed phrase are read as its postfix order. -/
theorem converts (h : scope.Reads env) {signed : Bool} (hformed : Formed env signed level e) :
    Converts scope level e := by
  induction hformed with
  | number value => exact converts_number h value
  | name _ hfree => exact converts_name h hfree
  | call _ hfunction hcount hne _ ih => exact converts_call h hfunction hcount hne ih
  | bracket _ ih => exact converts_bracket ih
  | negate _ hlevel ih => exact converts_negate h hlevel ih
  | between hoperator _ _ hleft hright hlevel iha ihb =>
      exact converts_between h hoperator iha ihb hleft hright hlevel

theorem ofTokens_eq (h : scope.Reads env) {signed : Bool} (hformed : Formed env signed level e)
    {tokens : List Token} (htokens : tokens.map lexeme = e.lexemes) (length : Nat) :
    ofTokens scope tokens length = .ok e.items := by
  obtain ⟨s, hs, hsettles, -⟩ := converts h hformed tokens [] 0 [] [] htokens (by simp [Follows])
    holds_nil
  rw [List.append_nil] at hs
  rw [ofTokens, hs]
  simp only [convert, bind, Except.bind, hsettles.expecting.1, Bool.false_eq_true, if_false]
  rw [hsettles.finish]
  simp [finish]

end Postfix

end ExactAlgebra
