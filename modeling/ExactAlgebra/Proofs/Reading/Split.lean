import ExactAlgebra.Proofs.Reading.Runs

/-!
# Splitting tokens into atoms

Each token stands for an atom or, if it is a run of operator characters, for several; a function
name and the bracket after it stand for one.  The tokens that are converted are those whose atoms
are read, to the same output.  Conversion tells an empty call by the places of its brackets among
the tokens: only right after a bracket is an operand expected while the bracket is on top of the
stack and no comma belongs to it.
-/

namespace ExactAlgebra

variable {α : Type}

/-- The atoms of tokens, given whether an operand is expected before them.  A function name is
followed by a bracket, and another name by none unless a blank stands between. -/
inductive Splits (scope : Grammar α) : (expecting : Bool) → List Token → List (Atom α) → Prop
  | nil (expecting : Bool) : Splits scope expecting [] []
  | number {expecting : Bool} {token : Token} {rest : List Token} {atoms : List (Atom α)}
      {value : α} (hkind : token.kind = .number) (hvalue : scope.number token.text = .ok value)
      (hrest : Splits scope false rest atoms) :
      Splits scope expecting (token :: rest) (.operand value :: atoms)
  | name {expecting : Bool} {token : Token} {rest : List Token} {atoms : List (Atom α)}
      {value : α} (hkind : token.kind = .name) (hfree : scope.isFunction token.text = false)
      (hspaced : ∀ next ∈ rest.head?, next.kind = .opening → next.spaced = true)
      (hvalue : scope.name token.text token.position = .ok value)
      (hrest : Splits scope false rest atoms) :
      Splits scope expecting (token :: rest) (.operand value :: atoms)
  | call {expecting : Bool} {token next : Token} {rest : List Token} {atoms : List (Atom α)}
      (hkind : token.kind = .name) (hfunction : scope.isFunction token.text = true)
      (hopening : next.kind = .opening) (hrest : Splits scope true rest atoms) :
      Splits scope expecting (token :: next :: rest) (.call token.text :: atoms)
  | opening {expecting : Bool} {token : Token} {rest : List Token} {atoms : List (Atom α)}
      (hkind : token.kind = .opening) (hrest : Splits scope true rest atoms) :
      Splits scope expecting (token :: rest) (.opening :: atoms)
  | closing {expecting : Bool} {token : Token} {rest : List Token} {atoms : List (Atom α)}
      (hkind : token.kind = .closing) (hrest : Splits scope false rest atoms) :
      Splits scope expecting (token :: rest) (.closing :: atoms)
  | comma {expecting : Bool} {token : Token} {rest : List Token} {atoms : List (Atom α)}
      (hkind : token.kind = .comma) (hrest : Splits scope true rest atoms) :
      Splits scope expecting (token :: rest) (.comma :: atoms)
  | run {expecting expecting' : Bool} {token : Token} {rest : List Token}
      {atoms : List (Atom α)} {operators : List Operator} (hkind : token.kind = .operators)
      (hrun : SplitsRun scope.table expecting token.text.toList operators expecting')
      (hrest : Splits scope expecting' rest atoms) :
      Splits scope expecting (token :: rest) (operators.map .operator ++ atoms)

theorem Splits.mem {scope : Grammar α} {expecting : Bool} {tokens : List Token}
    {atoms : List (Atom α)} (h : Splits scope expecting tokens atoms) (operator : Operator)
    (hoperator : .operator operator ∈ atoms) : operator ∈ scope.table.operators := by
  induction h with
  | nil => cases hoperator
  | number _ _ _ ih | name _ _ _ _ _ ih | call _ _ _ _ ih | opening _ _ ih | closing _ _ ih
  | comma _ _ ih => exact ih (by simpa using hoperator)
  | run _ hrun _ ih =>
      rcases List.mem_append.mp hoperator with hmem | hmem
      · exact hrun.mem operator (by simpa using hmem)
      · exact ih hmem

/-! ## States without places -/

/-- A bracket without its places. -/
def Bracket.plain (bracket : Bracket) : Bracket := { bracket with position := 0, index := 0 }

def Waiting.plain : Waiting → Waiting
  | .bracket b => .bracket b.plain
  | .operator o => .operator o
  | .missingProduct => .missingProduct

def Conversion.plain (s : Conversion α) : Conversion α :=
  { s with stack := s.stack.map Waiting.plain }

namespace Postfix

variable {scope : Grammar α} {product operator next : Operator} {s s' r : Conversion α}
  {output output' items : List (PostfixItem α)} {stack stack' : List Waiting}
  {atoms : List (Atom α)} {bracket : Bracket} {index position : Nat} {tokens : List Token}
  {token : Token} {rest : List Token} {value : α}

theorem yield_plain (next : Operator) (output : List (PostfixItem α)) (stack : List Waiting) :
    yield next output (stack.map Waiting.plain) =
      ((yield next output stack).1, (yield next output stack).2.map Waiting.plain) := by
  induction stack generalizing output with
  | nil => rfl
  | cons top stack ih =>
      cases top with
      | operator operator =>
          rw [List.map_cons, Waiting.plain, yield, yield, ih]
          split_ifs <;> simp [Waiting.plain]
      | bracket | missingProduct => rfl

theorem push_plain (next : Operator) (s : Conversion α) :
    push next s.plain = (push next s).plain := by
  simp [push, Conversion.plain, yield_plain, Waiting.plain]

theorem join_plain (product : Operator) (s : Conversion α) :
    join product s.plain = (join product s).plain := by
  have hexpecting : s.plain.expecting = s.expecting := rfl
  rw [join, join, hexpecting, push_plain]
  split_ifs <;> rfl

theorem unwind_plain (output : List (PostfixItem α)) (stack : List Waiting) :
    unwind output (stack.map Waiting.plain) =
      (unwind output stack).map fun found =>
        (found.1.plain, found.2.1, found.2.2.map Waiting.plain) := by
  induction stack generalizing output with
  | nil => rfl
  | cons top stack ih =>
      cases top with
      | operator | missingProduct => rw [List.map_cons, Waiting.plain, unwind, unwind, ih]
      | bracket => rfl

theorem finish_plain (output : List (PostfixItem α)) (stack : List Waiting) :
    finish output (stack.map Waiting.plain) = .ok items ↔ finish output stack = .ok items := by
  induction stack generalizing output with
  | nil => rfl
  | cons top stack ih =>
      cases top with
      | operator | missingProduct => rw [List.map_cons, Waiting.plain, finish, finish, ih]
      | bracket => simp [Waiting.plain, finish]

theorem applyCall_plain (scope : Grammar α) (name : String) (count : Nat)
    (output : List (PostfixItem α)) (stack : List Waiting) :
    applyCall scope name count output (stack.map Waiting.plain) =
      (applyCall scope name count output stack).map Conversion.plain := by
  unfold applyCall
  split_ifs <;> rfl

theorem advanceComma_plain (s : Conversion α) :
    advanceComma s.plain = (advanceComma s).map Conversion.plain := by
  obtain ⟨output, stack, expecting⟩ := s
  cases expecting with
  | true => rfl
  | false =>
      simp only [advanceComma, Conversion.plain, unwind_plain]
      rcases unwind output stack with _ | ⟨⟨position, index, function, commas⟩, output, stack⟩
      · rfl
      · cases function <;> rfl

theorem advanceClosing_plain (s : Conversion α) :
    advanceClosing scope s.plain = (advanceClosing scope s).map Conversion.plain := by
  obtain ⟨output, stack, expecting⟩ := s
  cases expecting with
  | true =>
      cases stack with
      | nil => rfl
      | cons top stack =>
          rcases top with operator | ⟨position, index, function, commas⟩ | _
          · rfl
          · cases function with
            | none => rfl
            | some name =>
                cases commas with
                | zero => exact applyCall_plain scope name 0 output stack
                | succ => rfl
          · rfl
  | false =>
      simp only [advanceClosing, Conversion.plain, Bool.false_eq_true, if_false, unwind_plain]
      rcases unwind output stack with _ | ⟨⟨position, index, function, commas⟩, output, stack⟩
      · rfl
      · cases function with
        | none => rfl
        | some name => exact applyCall_plain scope name (commas + 1) output stack

/-- The places of brackets do not matter for reading atoms. -/
theorem advance_plain (s : Conversion α) (atom : Atom α) :
    advance scope product s.plain atom = (advance scope product s atom).map Conversion.plain := by
  have hjoin := join_plain product s
  cases atom with
  | operand | call | opening =>
      simp only [advance, hjoin]
      rfl
  | closing => exact advanceClosing_plain s
  | comma => exact advanceComma_plain s
  | operator operator =>
      have hexpecting : s.plain.expecting = s.expecting := rfl
      simp only [advance, advanceOperator, hexpecting, push_plain]
      split <;> rfl

theorem foldlM_plain (s : Conversion α) (atoms : List (Atom α)) :
    atoms.foldlM (advance scope product) s.plain =
      (atoms.foldlM (advance scope product) s).map Conversion.plain := by
  induction atoms generalizing s with
  | nil => rfl
  | cons atom atoms ih =>
      rw [List.foldlM_cons, List.foldlM_cons, advance_plain]
      cases advance scope product s atom with
      | none => rfl
      | some s' => exact ih s'

/-! ## Brackets among the tokens -/

/-- Every open bracket on a stack has a property. -/
def Brackets (property : Bracket → Prop) (stack : List Waiting) : Prop :=
  ∀ bracket, .bracket bracket ∈ stack → property bracket

section

variable {property : Bracket → Prop}

theorem brackets_cons {top : Waiting} (h : Brackets property (top :: stack)) :
    Brackets property stack :=
  fun bracket hbracket => h bracket (List.mem_cons_of_mem _ hbracket)

theorem Brackets.addOperator (h : Brackets property stack) (operator : Operator) :
    Brackets property (.operator operator :: stack) :=
  fun bracket hbracket => h bracket (by simpa using hbracket)

theorem Brackets.addBracket (h : Brackets property stack) (hbracket : property bracket) :
    Brackets property (.bracket bracket :: stack) := by
  intro other hother
  rcases List.mem_cons.mp hother with heq | hmem
  · cases heq
    exact hbracket
  · exact h other hmem

theorem Brackets.yield (h : Brackets property stack) (next : Operator)
    (output : List (PostfixItem α)) : Brackets property (Postfix.yield next output stack).2 := by
  fun_induction Postfix.yield next output stack with
  | case1 _ _ _ _ ih => exact ih (brackets_cons h)
  | case2 | case3 => exact h

theorem Brackets.push (h : Brackets property s.stack) (next : Operator) :
    Brackets property (Postfix.push next s).stack :=
  (h.yield next s.output).addOperator next

theorem Brackets.join (h : Brackets property s.stack) (product : Operator) :
    Brackets property (Postfix.join product s).stack := by
  unfold Postfix.join
  split_ifs
  · exact h
  · exact h.push product

theorem Brackets.waitBefore (h : Brackets property s.stack) (operators : List Operator) :
    Brackets property (Postfix.waitBefore operators s).stack := by
  intro bracket hbracket
  refine h bracket ?_
  simpa [Postfix.waitBefore] using hbracket

theorem mem_of_unwind (hunwind : Postfix.unwind output stack = some (bracket, output', stack')) :
    .bracket bracket ∈ stack := by
  fun_induction Postfix.unwind output stack with
  | case1 => cases hunwind
  | case2 =>
      cases hunwind
      exact List.mem_cons_self
  | case3 _ _ _ ih | case4 _ _ ih => exact List.mem_cons_of_mem _ (ih hunwind)

theorem Brackets.unwind (h : Brackets property stack)
    (hunwind : Postfix.unwind output stack = some (bracket, output', stack')) :
    property bracket ∧ Brackets property stack' := by
  fun_induction Postfix.unwind output stack with
  | case1 => cases hunwind
  | case2 =>
      cases hunwind
      exact ⟨h _ List.mem_cons_self, brackets_cons h⟩
  | case3 _ _ _ ih | case4 _ _ ih => exact ih (brackets_cons h) hunwind

/-- Reading a run opens no bracket. -/
theorem Brackets.readRun {table : OperatorTable} {run : List Char}
    (h : Brackets property s.stack) (hs : Postfix.readRun table position run s = .ok s') :
    Brackets property s'.stack := by
  unfold Postfix.readRun at hs
  split_ifs at hs
  · obtain ⟨before, -, hs⟩ := exists_of_bind hs
    cases hs
    exact h.waitBefore before
  · dsimp only at hs
    split_ifs at hs
    · cases hs
      exact h
    · split at hs
      · cases hs
      · obtain ⟨before, -, hs⟩ := exists_of_bind hs
        cases hs
        exact Brackets.waitBefore ((Brackets.yield h _ _).addOperator _) before

/-- A comma changes the number of commas in a bracket and nothing else. -/
theorem Brackets.readComma
    (hproperty : ∀ bracket, property bracket →
      property { bracket with commas := bracket.commas + 1 })
    (h : Brackets property s.stack) (hs : Postfix.readComma position s = .ok s') :
    Brackets property s'.stack := by
  unfold Postfix.readComma at hs
  split_ifs at hs
  split at hs
  · cases hs
  next hunwind =>
    obtain ⟨hbracket, hstack⟩ := h.unwind hunwind
    split at hs
    · cases hs
    · cases hs
      exact hstack.addBracket (hproperty _ hbracket)

theorem Brackets.readClose (h : Brackets property s.stack)
    (hs : Postfix.readClose scope index position s = .ok s') : Brackets property s'.stack := by
  unfold Postfix.readClose at hs
  split at hs
  · cases hs
  next hunwind =>
    obtain ⟨-, hstack⟩ := h.unwind hunwind
    dsimp only at hs
    split at hs
    · split_ifs at hs
      cases hs
      exact hstack
    · split_ifs at hs <;> cases hs <;> exact hstack

end

/-- The places of brackets before the token with an index: only an empty bracket on top of the
stack is right before it. -/
structure Placed (index : Nat) (s : Conversion α) : Prop where
  earlier : Brackets (fun bracket => bracket.index < index) s.stack
  fresh : ∀ bracket, .bracket bracket ∈ s.stack → (bracket.index + 1 = index ↔
    s.expecting = true ∧ s.stack.head? = some (.bracket bracket) ∧ bracket.commas = 0)

theorem placed_start : Placed 0 (⟨[], [], true⟩ : Conversion α) :=
  ⟨fun _ h => (List.not_mem_nil h).elim, fun _ h => (List.not_mem_nil h).elim⟩

/-- After a token that opens no bracket. -/
theorem placed_succ (h : Brackets (fun bracket => bracket.index < index) s.stack)
    (hfresh : ∀ bracket, s.expecting = true → s.stack.head? = some (.bracket bracket) →
      bracket.commas ≠ 0) : Placed (index + 1) s where
  earlier bracket hbracket := Nat.lt_succ_of_lt (h bracket hbracket)
  fresh bracket hbracket := by
    have hlt := h bracket hbracket
    refine ⟨fun heq => by omega, fun ⟨hexpecting, htop, hcommas⟩ => ?_⟩
    exact absurd hcommas (hfresh bracket hexpecting htop)

theorem placed_openBracket (h : Brackets (fun bracket => bracket.index < index) s.stack)
    (hs : s.expecting = true) (position : Nat) (function : Option String) :
    Placed (index + 1) (openBracket position index function s) := by
  have hearlier : Brackets (fun bracket => bracket.index < index + 1) s.stack :=
    fun bracket hbracket => Nat.lt_succ_of_lt (h bracket hbracket)
  refine ⟨hearlier.addBracket (Nat.lt_succ_self index), fun bracket hbracket => ?_⟩
  rcases List.mem_cons.mp hbracket with heq | hmem
  · cases heq
    simp [openBracket, hs]
  · have hlt := h bracket hmem
    refine ⟨fun heq => by omega, fun hblank => ?_⟩
    cases hblank.2.1
    exact absurd hlt (lt_irrefl _)

/-! ## Reading a token -/

theorem readComma_iff (position : Nat) :
    readComma position s = .ok s' ↔ advanceComma s = some s' := by
  obtain ⟨output, stack, expecting⟩ := s
  cases expecting with
  | true => simp [readComma, advanceComma]
  | false =>
      simp only [readComma, advanceComma, Bool.false_eq_true, if_false]
      rcases unwind output stack with _ | ⟨⟨position, index, function, commas⟩, output, stack⟩
      · simp
      · cases function <;> simp

/-- An operand is missing if one is expected and the innermost bracket is not empty. -/
theorem readClose_missing {bracket : Bracket}
    (hunwind : unwind output stack = some (bracket, output', stack'))
    (hblank : (bracket.index + 1 == index) = false) :
    readClose scope index position ⟨output, stack, true⟩ =
      .error (.parse .missingOperand position) := by
  simp only [readClose, hunwind, hblank]
  cases bracket.function <;> rfl

/-- A bracket may be closed while an operand is expected only if it is on top of the stack and no
comma belongs to it. -/
theorem readClose_iff_of_expecting (hplaced : Placed index (⟨output, stack, true⟩ : Conversion α)) :
    readClose scope index position ⟨output, stack, true⟩ = .ok s' ↔
      advanceClosing scope ⟨output, stack, true⟩ = some s' := by
  have hnone : (∀ bracket, stack.head? ≠ some (.bracket bracket)) →
      readClose scope index position ⟨output, stack, true⟩ ≠ .ok s' := by
    intro htop hs
    rcases hunwind : unwind output stack with _ | ⟨bracket, output', stack'⟩
    · simp [readClose, hunwind] at hs
    · have hmem := mem_of_unwind hunwind
      rw [readClose_missing hunwind] at hs
      · cases hs
      · rw [beq_eq_false_iff_ne, ne_eq, hplaced.fresh bracket hmem]
        exact fun h => htop bracket h.2.1
  rcases stack with _ | ⟨operator | ⟨place, start, function, commas⟩ | _, stack⟩
  · exact iff_of_false (hnone (by simp)) (by simp [advanceClosing])
  · exact iff_of_false (hnone (by simp)) (by simp [advanceClosing])
  · have hfresh := hplaced.fresh ⟨place, start, function, commas⟩ List.mem_cons_self
    simp only [List.head?_cons, true_and] at hfresh
    cases function with
    | none => simp [readClose, advanceClosing, unwind]
    | some name =>
        cases commas with
        | zero =>
            have hblank : start + 1 = index := hfresh.mpr rfl
            simp only [readClose, unwind, advanceClosing, hblank, applyCall]
            by_cases hcount : scope.accepts name 0 = true <;> simp [hcount]
        | succ commas =>
            have hblank : (start + 1 == index) = false := by
              rw [beq_eq_false_iff_ne, ne_eq, hfresh]
              omega
            rw [readClose_missing rfl hblank]
            simp [advanceClosing]
  · exact iff_of_false (hnone (by simp)) (by simp [advanceClosing])

theorem readClose_iff (position : Nat) (hplaced : Placed index s) :
    readClose scope index position s = .ok s' ↔ advanceClosing scope s = some s' := by
  obtain ⟨output, stack, expecting⟩ := s
  cases expecting with
  | true => exact readClose_iff_of_expecting hplaced
  | false =>
      simp only [readClose, advanceClosing, Bool.false_eq_true, if_false, Bool.false_and]
      rcases hunwind : unwind output stack with _ | ⟨bracket, output', stack'⟩
      · simp
      · have hmem := mem_of_unwind hunwind
        have hblank : (bracket.index + 1 == index) = false := by
          rw [beq_eq_false_iff_ne, ne_eq, hplaced.fresh bracket hmem]
          simp
        obtain ⟨place, start, function, commas⟩ := bracket
        cases function with
        | none => simp
        | some name =>
            simp only [hblank, Bool.false_eq_true, if_false, applyCall]
            split_ifs <;> simp

theorem expecting_of_advanceClosing (h : advanceClosing scope s = some s') :
    s'.expecting = false := by
  unfold advanceClosing applyCall at h
  split_ifs at h
  · split at h
    · split_ifs at h
      cases h
      rfl
    · cases h
  · split at h
    · cases h
      rfl
    · split_ifs at h
      cases h
      rfl
    · cases h

theorem expecting_of_advanceComma (h : advanceComma s = some s') :
    s'.expecting = true ∧
      ∀ bracket, s'.stack.head? = some (.bracket bracket) → bracket.commas ≠ 0 := by
  unfold advanceComma at h
  split at h
  · cases h
    refine ⟨rfl, fun bracket hbracket => ?_⟩
    cases hbracket
    exact Nat.succ_ne_zero _
  · cases h

theorem head?_waitBefore {operators : List Operator}
    (h : (waitBefore operators s).stack.head? = some (.bracket bracket)) :
    operators = [] ∧ s.stack.head? = some (.bracket bracket) := by
  cases operators using List.reverseRecOn with
  | nil => exact ⟨rfl, h⟩
  | append_singleton operators last => simp [waitBefore] at h

/-- An operand that is expected after a run is expected by an operator. -/
theorem head?_of_readRun {table : OperatorTable} {run : List Char} (hne : run ≠ [])
    (h : readRun table position run s = .ok s') (hs' : s'.expecting = true)
    (bracket : Bracket) : s'.stack.head? ≠ some (.bracket bracket) := by
  intro htop
  unfold readRun at h
  split_ifs at h with hs
  · obtain ⟨before, hbefore, h⟩ := exists_of_bind h
    cases h
    obtain ⟨rfl, -⟩ := head?_waitBefore htop
    exact hne (prefixes_iff.mp hbefore).run_eq
  · dsimp only at h
    split_ifs at h
    · cases h
      exact hs hs'
    · split at h
      · cases h
      · obtain ⟨before, -, h⟩ := exists_of_bind h
        cases h
        cases (head?_waitBefore htop).2

/-! ## Conversion -/

section

variable (hproduct : scope.table.find? "*" .between = some product)

include hproduct

theorem joinOperand_eq (s : Conversion α) {kind : TokenKind}
    (hkind : kind = .number ∨ kind = .name ∨ kind = .opening) :
    joinOperand scope kind s = .ok (join product s) := by
  have hpush : (if s.expecting = true then .ok s else pushProduct scope.table s) =
      (.ok (join product s) : Except Fault (Conversion α)) := by
    rw [pushProduct, hproduct, join]
    split_ifs <;> rfl
  rcases hkind with rfl | rfl | rfl <;> exact hpush

theorem convert_of_number (index : Nat) (s : Conversion α) (hkind : token.kind = .number)
    (rest : List Token) : convert scope index s (token :: rest) =
      scope.number token.text >>= fun value =>
        convert scope (index + 1) (putOperand value (join product s)) rest := by
  rw [convert_cons_number scope index s hkind, joinOperand_eq hproduct s (.inl rfl)]
  rfl

theorem convert_of_opening (index : Nat) (s : Conversion α) (hkind : token.kind = .opening)
    (rest : List Token) : convert scope index s (token :: rest) =
      convert scope (index + 1) (openBracket token.position index none (join product s)) rest := by
  rw [convert_cons_opening scope index s hkind, joinOperand_eq hproduct s (.inr (.inr rfl))]
  rfl

theorem convert_of_name (index : Nat) (s : Conversion α) (hkind : token.kind = .name)
    (rest : List Token) (hcall : isCall scope token rest.head? = .ok false) :
    convert scope index s (token :: rest) =
      scope.name token.text token.position >>= fun value =>
        convert scope (index + 1) (putOperand value (join product s)) rest := by
  cases rest with
  | nil =>
      rw [convert_cons_name_nil scope index s hkind, joinOperand_eq hproduct s (.inr (.inl rfl))]
      rfl
  | cons next others =>
      rw [List.head?_cons] at hcall
      rw [convert_cons_name scope index s hkind, joinOperand_eq hproduct s (.inr (.inl rfl)), hcall]
      rfl

theorem convert_of_call {next : Token} (index : Nat) (s : Conversion α)
    (hkind : token.kind = .name) (hcall : isCall scope token (some next) = .ok true)
    (rest : List Token) : convert scope index s (token :: next :: rest) =
      convert scope (index + 2)
        (openBracket next.position (index + 1) (some token.text) (join product s)) rest := by
  rw [convert_cons_name scope index s hkind, joinOperand_eq hproduct s (.inr (.inl rfl)), hcall]
  rfl

/-- No name that is converted stands before a bracket as an unknown function. -/
theorem exists_isCall_of_convert (hkind : token.kind = .name)
    (hs : convert scope index s (token :: rest) = .ok s') :
    ∃ called, isCall scope token rest.head? = .ok called := by
  cases rest with
  | nil => exact ⟨false, rfl⟩
  | cons next others =>
      rw [List.head?_cons]
      cases hcall : isCall scope token (some next) with
      | error fault =>
          rw [convert_cons_name scope index s hkind, joinOperand_eq hproduct s (.inr (.inl rfl)),
            hcall] at hs
          cases hs
      | ok called => exact ⟨called, rfl⟩

end

theorem isCall_eq_true {next : Token} (h : isCall scope token (some next) = .ok true) :
    next.kind = .opening ∧ scope.isFunction token.text = true := by
  rw [isCall] at h
  split_ifs at h with hother hfunction hspaced
  · cases h
  · exact ⟨by simpa using hother, hfunction⟩
  · cases h

theorem isCall_eq_false {following : Option Token} (h : isCall scope token following = .ok false) :
    ∀ next ∈ following, next.kind = .opening → next.spaced = true := by
  rintro next hnext hkind
  cases hnext
  rw [isCall, if_neg (not_not.mpr hkind)] at h
  split_ifs at h with hfunction hspaced
  · cases h
  · exact hspaced

theorem isCall_of_free {following : Option Token} (hfree : scope.isFunction token.text = false)
    (hspaced : ∀ next ∈ following, next.kind = .opening → next.spaced = true) :
    isCall scope token following = .ok false := by
  unfold isCall
  cases following with
  | none => rfl
  | some next =>
      by_cases hkind : next.kind = .opening
      · simp [hkind, hfree, hspaced next rfl hkind]
      · simp [hkind]

/-! ## Placed states -/

theorem Placed.operand (h : Placed index s) (product : Operator) (value : α) :
    Placed (index + 1) (putOperand value (join product s)) :=
  placed_succ (h.earlier.join product) (by simp [putOperand])

theorem expecting_join (product : Operator) (s : Conversion α) :
    (join product s).expecting = true := by
  unfold join
  split_ifs with h
  · exact h
  · rfl

theorem Placed.opening (h : Placed index s) (product : Operator) (position : Nat) :
    Placed (index + 1) (openBracket position index none (join product s)) :=
  placed_openBracket (h.earlier.join product) (expecting_join product s) _ _

theorem Placed.call (h : Placed index s) (product : Operator) (position : Nat) (name : String) :
    Placed (index + 2) (openBracket position (index + 1) (some name) (join product s)) :=
  placed_openBracket (fun bracket hbracket =>
    Nat.lt_succ_of_lt (h.earlier.join product bracket hbracket)) (expecting_join product s) _ _

theorem Placed.run {table : OperatorTable} {run : List Char} (h : Placed index s) (hne : run ≠ [])
    (hs : readRun table position run s = .ok s') : Placed (index + 1) s' :=
  placed_succ (h.earlier.readRun hs)
    fun bracket hexpecting htop => absurd htop (head?_of_readRun hne hs hexpecting bracket)

theorem Placed.comma (h : Placed index s) (hs : readComma position s = .ok s') :
    Placed (index + 1) s' :=
  placed_succ (h.earlier.readComma (fun _ hbracket => hbracket) hs)
    fun bracket _ htop =>
      (expecting_of_advanceComma ((readComma_iff position).mp hs)).2 bracket htop

theorem Placed.closing (h : Placed index s) (hs : readClose scope index position s = .ok s') :
    Placed (index + 1) s' :=
  placed_succ (h.earlier.readClose hs) (by
    simp [expecting_of_advanceClosing ((readClose_iff position h).mp hs)])

/-! ## Tokens and their atoms -/

/-- Reading an atom first. -/
theorem foldlM_cons_plain {atom : Atom α} (h : (advance scope product s atom).map .plain =
    some s'.plain) (atoms : List (Atom α)) :
    (atom :: atoms).foldlM (advance scope product) s.plain =
      atoms.foldlM (advance scope product) s'.plain := by
  rw [List.foldlM_cons, advance_plain, h]
  rfl

section

variable (hproduct : scope.table.find? "*" .between = some product)

include hproduct

/-- Tokens that are converted stand for atoms that are read. -/
theorem exists_splits_of_convert
    (hname : ∀ {text place value}, scope.name text place = .ok value →
      scope.isFunction text = false)
    (hrun : ∀ token ∈ tokens, token.kind = .operators → token.text.toList ≠ [])
    (hplaced : Placed index s) (hs : convert scope index s tokens = .ok s') :
    ∃ atoms, Splits scope s.expecting tokens atoms ∧
      atoms.foldlM (advance scope product) s.plain = some s'.plain := by
  induction index, s, tokens using convert.induct with
  | case1 index s =>
      cases hs
      exact ⟨[], .nil _, rfl⟩
  | case2 index s token rest ihNumber ihName ihOpening ihOther =>
      obtain ⟨htoken, hrest⟩ := List.forall_mem_cons.mp hrun
      cases hkind : token.kind with
      | number =>
          rw [convert_of_number hproduct index s hkind] at hs
          obtain ⟨value, hvalue, hs⟩ := exists_of_bind hs
          obtain ⟨atoms, hsplits, hfold⟩ := ihNumber _ value hrest (hplaced.operand _ _) hs
          exact ⟨_, .number hkind hvalue hsplits, (foldlM_cons_plain rfl atoms).trans hfold⟩
      | name =>
          cases rest with
          | nil =>
              rw [convert_of_name hproduct index s hkind [] rfl] at hs
              obtain ⟨value, hvalue, hs⟩ := exists_of_bind hs
              cases hs
              exact ⟨_, .name hkind (hname hvalue) (by simp) hvalue (.nil _),
                foldlM_cons_plain rfl []⟩
          | cons next others =>
              obtain ⟨ihCall, ihOperand⟩ := ihName (join product s)
              obtain ⟨called, hcall⟩ := exists_isCall_of_convert hproduct hkind hs
              rw [List.head?_cons] at hcall
              cases called with
              | true =>
                  rw [convert_of_call hproduct index s hkind hcall] at hs
                  obtain ⟨atoms, hsplits, hfold⟩ := ihCall
                    (List.forall_mem_cons.mp hrest).2 (hplaced.call _ _ _) hs
                  obtain ⟨hopening, hfunction⟩ := isCall_eq_true hcall
                  rw [openBracket, expecting_join] at hsplits
                  exact ⟨_, .call hkind hfunction hopening hsplits,
                    (foldlM_cons_plain rfl atoms).trans hfold⟩
              | false =>
                  rw [convert_of_name hproduct index s hkind (next :: others) hcall] at hs
                  obtain ⟨value, hvalue, hs⟩ := exists_of_bind hs
                  obtain ⟨atoms, hsplits, hfold⟩ := ihOperand value hrest
                    (hplaced.operand _ _) hs
                  exact ⟨_, .name hkind (hname hvalue) (isCall_eq_false hcall) hvalue hsplits,
                    (foldlM_cons_plain rfl atoms).trans hfold⟩
      | opening =>
          rw [convert_of_opening hproduct index s hkind] at hs
          obtain ⟨atoms, hsplits, hfold⟩ := ihOpening _ hrest (hplaced.opening _ _) hs
          rw [openBracket, expecting_join] at hsplits
          exact ⟨_, .opening hkind hsplits, (foldlM_cons_plain rfl atoms).trans hfold⟩
      | operators =>
          rw [convert_of_operators scope index s hkind] at hs
          obtain ⟨after, hafter, hs⟩ := exists_of_bind hs
          obtain ⟨atoms, hsplits, hfold⟩ := ihOther _ hrest (hplaced.run (htoken hkind) hafter) hs
          obtain ⟨operators, hoperators, hread⟩ :=
            (readRun_iff scope product token.position).mp hafter
          refine ⟨_, .run hkind hoperators hsplits, ?_⟩
          rw [List.foldlM_append, foldlM_plain, hread]
          exact hfold
      | comma =>
          rw [convert_of_comma scope index s hkind] at hs
          obtain ⟨after, hafter, hs⟩ := exists_of_bind hs
          obtain ⟨atoms, hsplits, hfold⟩ := ihOther _ hrest (hplaced.comma hafter) hs
          have hread := (readComma_iff token.position).mp hafter
          rw [(expecting_of_advanceComma hread).1] at hsplits
          refine ⟨_, .comma hkind hsplits, (foldlM_cons_plain ?_ atoms).trans hfold⟩
          rw [advance, hread, Option.map_some]
      | closing =>
          rw [convert_of_closing scope index s hkind] at hs
          obtain ⟨after, hafter, hs⟩ := exists_of_bind hs
          obtain ⟨atoms, hsplits, hfold⟩ := ihOther _ hrest (hplaced.closing hafter) hs
          have hread := (readClose_iff token.position hplaced).mp hafter
          rw [expecting_of_advanceClosing hread] at hsplits
          refine ⟨_, .closing hkind hsplits, (foldlM_cons_plain ?_ atoms).trans hfold⟩
          rw [advance, hread, Option.map_some]

/-- Tokens whose atoms are read are converted. -/
theorem exists_convert_of_splits {expecting : Bool} (hsplits : Splits scope expecting tokens atoms)
    (hs : s.expecting = expecting)
    (hrun : ∀ token ∈ tokens, token.kind = .operators → token.text.toList ≠ [])
    (hplaced : Placed index s) (hfold : atoms.foldlM (advance scope product) s.plain = some r) :
    ∃ s', convert scope index s tokens = .ok s' ∧ s'.plain = r := by
  induction hsplits generalizing index s with
  | nil => exact ⟨s, rfl, Option.some.inj hfold⟩
  | number hkind hvalue _ ih =>
      rw [convert_of_number hproduct index s hkind, hvalue]
      exact ih rfl (List.forall_mem_cons.mp hrun).2 (hplaced.operand _ _)
        ((foldlM_cons_plain rfl _).symm.trans hfold)
  | name hkind hfree hspaced hvalue _ ih =>
      rw [convert_of_name hproduct index s hkind _ (isCall_of_free hfree hspaced), hvalue]
      exact ih rfl (List.forall_mem_cons.mp hrun).2 (hplaced.operand _ _)
        ((foldlM_cons_plain rfl _).symm.trans hfold)
  | @call _ token next _ _ hkind hfunction hopening _ ih =>
      have hcall : isCall scope token (some next) = .ok true := by
        simp [isCall, hopening, hfunction]
      rw [convert_of_call hproduct index s hkind hcall]
      exact ih (expecting_join product s)
        (List.forall_mem_cons.mp (List.forall_mem_cons.mp hrun).2).2 (hplaced.call _ _ _)
        ((foldlM_cons_plain rfl _).symm.trans hfold)
  | opening hkind _ ih =>
      rw [convert_of_opening hproduct index s hkind]
      exact ih (expecting_join product s) (List.forall_mem_cons.mp hrun).2 (hplaced.opening _ _)
        ((foldlM_cons_plain rfl _).symm.trans hfold)
  | @closing _ token _ _ hkind _ ih =>
      rw [List.foldlM_cons, advance_plain] at hfold
      cases hread : advance scope product s .closing with
      | none => simp [hread] at hfold
      | some after =>
          rw [hread] at hfold
          have hafter := (readClose_iff token.position hplaced).mpr hread
          rw [convert_of_closing scope index s hkind, hafter]
          exact ih (expecting_of_advanceClosing hread) (List.forall_mem_cons.mp hrun).2
            (hplaced.closing hafter) hfold
  | @comma _ token _ _ hkind _ ih =>
      rw [List.foldlM_cons, advance_plain] at hfold
      cases hread : advance scope product s .comma with
      | none => simp [hread] at hfold
      | some after =>
          rw [hread] at hfold
          have hafter := (readComma_iff token.position).mpr hread
          rw [convert_of_comma scope index s hkind, hafter]
          exact ih (expecting_of_advanceComma hread).1 (List.forall_mem_cons.mp hrun).2
            (hplaced.comma hafter) hfold
  | @run _ _ token _ _ operators hkind hsplitsRun _ ih =>
      obtain ⟨htoken, hrest⟩ := List.forall_mem_cons.mp hrun
      rw [List.foldlM_append, foldlM_plain] at hfold
      cases hread : (operators.map Atom.operator).foldlM (advance scope product) s with
      | none => simp [hread] at hfold
      | some after =>
          rw [hread] at hfold
          have hexpecting := expecting_of_splitsRun hsplitsRun hs hread
          have hafter := (readRun_iff scope product token.position).mpr
            ⟨operators, hs ▸ hexpecting ▸ hsplitsRun, hread⟩
          rw [convert_of_operators scope index s hkind, hafter]
          exact ih hexpecting hrest (hplaced.run (htoken hkind) hafter) hfold

/-- Tokens are accepted if they stand for the atoms of a tree that precedence allows, and the
output is the postorder of the tree. -/
theorem ofTokens_eq_ok_iff
    (hname : ∀ {text place value}, scope.name text place = .ok value →
      scope.isFunction text = false)
    (hrun : ∀ token ∈ tokens, token.kind = .operators → token.text.toList ≠ []) (length : Nat) :
    ofTokens scope tokens length = .ok items ↔
      ∃ tree, Grouped scope product tree ∧ Splits scope true tokens tree.atoms ∧
        tree.postorder = items := by
  have hrole : product.role = .between := (OperatorTable.find?_spec hproduct).2.2
  have hstart : (⟨[], [], true⟩ : Conversion α).plain = ⟨[], [], true⟩ := rfl
  constructor
  · intro h
    obtain ⟨s, hs, h⟩ := exists_of_bind h
    split_ifs at h with hexpecting
    obtain ⟨atoms, hsplits, hfold⟩ := exists_splits_of_convert hproduct hname hrun placed_start hs
    rw [hstart] at hfold
    obtain ⟨tree, hgrouped, rfl, hitems⟩ := (exists_foldlM_iff hrole).mp
      ⟨s.plain, hfold, (Bool.not_eq_true _).mp hexpecting, (finish_plain s.output s.stack).mpr h⟩
    exact ⟨tree, hgrouped, hsplits, hitems⟩
  · rintro ⟨tree, hgrouped, hsplits, hitems⟩
    obtain ⟨r, hfold, hexpecting, hfinish⟩ :=
      (exists_foldlM_iff hrole).mpr ⟨tree, hgrouped, rfl, hitems⟩
    obtain ⟨s, hs, rfl⟩ :=
      exists_convert_of_splits hproduct hsplits rfl hrun placed_start hfold
    have hexpecting : s.expecting = false := hexpecting
    rw [ofTokens, hs]
    simp only [bind, Except.bind, hexpecting, Bool.false_eq_true, if_false]
    exact (finish_plain s.output s.stack).mp hfinish

end

end Postfix

end ExactAlgebra
