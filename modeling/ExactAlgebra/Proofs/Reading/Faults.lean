import ExactAlgebra.Proofs.Reading.Split

/-!
# Faults of reading

Whatever goes wrong while tokens are converted is reported as a parse fault, at a place in one of
the tokens or at the end of the text.
-/

namespace ExactAlgebra

variable {α β : Type} {allowed : Nat → Prop}

/-- Any failure is a parse fault at an allowed position. -/
def Located (allowed : Nat → Prop) (outcome : Except Fault β) : Prop :=
  ∀ fault, outcome = .error fault → ∃ cause position, fault = .parse cause position ∧
    allowed position

theorem located_ok (value : β) : Located allowed (.ok value) := nofun

theorem located_error {position : Nat} (cause : ParseFault) (h : allowed position) :
    Located allowed (.error (.parse cause position) : Except Fault β) := by
  rintro fault ⟨⟩
  exact ⟨cause, position, rfl, h⟩

theorem Located.bind {outcome : Except Fault α} {next : α → Except Fault β}
    (h : Located allowed outcome)
    (hnext : ∀ value, outcome = .ok value → Located allowed (next value)) :
    Located allowed (outcome >>= next) := by
  cases outcome with
  | ok value => exact hnext value rfl
  | error fault =>
      rintro fault' ⟨⟩
      exact h fault rfl

namespace Postfix

variable {scope : Grammar α} {product : Operator} {s : Conversion α} {position index : Nat}
  {table : OperatorTable} {run : List Char} {output : List (PostfixItem α)}
  {stack : List Waiting} {tokens : List Token} {token : Token}

/-! ## Runs -/

theorem located_prefixes (h : ∀ offset ≤ run.length, allowed (position + offset)) :
    Located allowed (prefixes table position run) := by
  fun_induction prefixes table position run with
  | case1 => exact located_ok _
  | case2 position first rest => exact located_error _ (h 0 (Nat.zero_le _))
  | case3 position first more operator rest hsome ih =>
      have hlength := congrArg List.length (longest?_eq_some_iff.mp hsome).run
      rw [List.length_append, String.length_toList] at hlength
      refine (ih fun offset hoffset => ?_).bind fun _ _ => located_ok _
      rw [Nat.add_assoc]
      exact h _ (by omega)

/-- The rest of a run is at its end. -/
theorem exists_place_suffixes (table : OperatorTable) (position : Nat) (run : List Char) :
    ∃ taken, (suffixes table position run).2.1 = position + taken ∧
      taken + (suffixes table position run).2.2.length = run.length := by
  fun_induction suffixes table position run with
  | case1 position run => exact ⟨0, rfl, Nat.zero_add _⟩
  | case2 position run operator rest hsome others place left hothers ih =>
      have hlength := congrArg List.length (longest?_eq_some_iff.mp hsome).run
      rw [List.length_append, String.length_toList] at hlength
      rw [hothers] at ih
      obtain ⟨taken, hplace, htaken⟩ := ih
      refine ⟨operator.symbol.length + taken, ?_, ?_⟩ <;> dsimp only at hplace htaken ⊢ <;> omega

theorem located_readRun (h : ∀ offset ≤ run.length, allowed (position + offset)) :
    Located allowed (readRun table position run s) := by
  unfold readRun
  split_ifs
  · exact (located_prefixes h).bind fun _ _ => located_ok _
  · obtain ⟨taken, hplace, htaken⟩ := exists_place_suffixes table position run
    generalize suffixes table position run = found at hplace htaken
    obtain ⟨after, place, rest⟩ := found
    obtain rfl : place = position + taken := hplace
    have hlater : ∀ offset ≤ rest.length, allowed (position + taken + offset) := by
      intro offset hoffset
      rw [Nat.add_assoc]
      exact h _ (by dsimp only at htaken; omega)
    dsimp only
    split_ifs
    · exact located_ok _
    · split
      · exact located_error _ (hlater 0 (Nat.zero_le _))
      next operator others hlongest =>
        have hlength := congrArg List.length (longest?_eq_some_iff.mp hlongest).run
        rw [List.length_append, String.length_toList] at hlength
        refine (located_prefixes fun offset hoffset => ?_).bind fun _ _ => located_ok _
        rw [Nat.add_assoc _ operator.symbol.length]
        exact hlater _ (by omega)

/-! ## Brackets -/

theorem located_readComma (h : allowed position) : Located allowed (readComma position s) := by
  unfold readComma
  split_ifs
  · exact located_error _ h
  · split
    · exact located_error _ h
    · split
      · exact located_error _ h
      · exact located_ok _

theorem located_readClose (h : allowed position)
    (hbrackets : Brackets (fun bracket => allowed bracket.position) s.stack) :
    Located allowed (readClose scope index position s) := by
  unfold readClose
  split
  · exact located_error _ h
  next hunwind =>
    have hbracket := (hbrackets.unwind hunwind).1
    dsimp only
    split
    · split_ifs
      · exact located_error _ h
      · exact located_error _ h
      · exact located_ok _
    · split_ifs
      · exact located_error _ h
      · exact located_ok _
      · exact located_error _ hbracket
      · exact located_ok _
      · exact located_error _ hbracket

theorem located_isCall {following : Option Token} (h : allowed token.position) :
    Located allowed (isCall scope token following) := by
  unfold isCall
  split
  · exact located_ok _
  · split_ifs
    · exact located_ok _
    · exact located_ok _
    · exact located_ok _
    · exact located_error _ h

theorem located_finish (h : Brackets (fun bracket => allowed bracket.position) stack) :
    Located allowed (finish output stack) := by
  fun_induction finish output stack with
  | case1 => exact located_ok _
  | case2 output bracket stack => exact located_error _ (h bracket List.mem_cons_self)
  | case3 _ _ _ ih | case4 _ _ ih => exact ih (brackets_cons h)

/-! ## Conversion -/

/-- What follows a conversion is located if it is for all brackets at allowed positions. -/
theorem located_convert_bind {next : Conversion α → Except Fault β}
    (hproduct : scope.table.find? "*" .between = some product)
    (hname : ∀ text place, allowed place → Located allowed (scope.name text place))
    (hnext : ∀ s, Brackets (fun bracket => allowed bracket.position) s.stack →
      Located allowed (next s))
    (hnumber : ∀ token ∈ tokens, token.kind = .number → Located allowed (scope.number token.text))
    (hplaces : ∀ token ∈ tokens, ∀ offset ≤ token.text.toList.length,
      allowed (token.position + offset))
    (hbrackets : Brackets (fun bracket => allowed bracket.position) s.stack) :
    Located allowed (convert scope index s tokens >>= next) := by
  induction index, s, tokens using convert.induct with
  | case1 index s => exact hnext s hbrackets
  | case2 index s token rest ihNumber ihName ihOpening ihOther =>
      obtain ⟨htoken, hnumber⟩ := List.forall_mem_cons.mp hnumber
      obtain ⟨hplace, hplaces⟩ := List.forall_mem_cons.mp hplaces
      have hposition : allowed token.position := hplace 0 (Nat.zero_le _)
      have hjoin := hbrackets.join product
      cases hkind : token.kind with
      | number =>
          rw [convert_of_number hproduct index s hkind, bind_assoc]
          exact (htoken hkind).bind fun value _ => ihNumber _ value hnumber hplaces hjoin
      | name =>
          cases hcall : isCall scope token rest.head? with
          | error fault =>
              cases rest with
              | nil => cases hcall
              | cons next others =>
                  rw [List.head?_cons] at hcall
                  rw [convert_cons_name scope index s hkind,
                    joinOperand_eq hproduct s (.inr (.inl rfl)), hcall]
                  rintro fault' ⟨⟩
                  exact located_isCall hposition _ hcall
          | ok called =>
              cases called with
              | false =>
                  rw [convert_of_name hproduct index s hkind rest hcall, bind_assoc]
                  refine (hname _ _ hposition).bind fun value _ => ?_
                  cases rest with
                  | nil => exact hnext _ hjoin
                  | cons next others => exact (ihName _).2 value hnumber hplaces hjoin
              | true =>
                  cases rest with
                  | nil => cases hcall
                  | cons next others =>
                      rw [convert_of_call hproduct index s hkind hcall]
                      obtain ⟨hbracket, hplaces⟩ := List.forall_mem_cons.mp hplaces
                      exact (ihName _).1 (List.forall_mem_cons.mp hnumber).2 hplaces
                        (hjoin.addBracket (hbracket 0 (Nat.zero_le _)))
      | opening =>
          rw [convert_of_opening hproduct index s hkind]
          exact ihOpening _ hnumber hplaces (hjoin.addBracket hposition)
      | operators =>
          rw [convert_of_operators scope index s hkind, bind_assoc]
          exact (located_readRun hplace).bind fun after hafter =>
            ihOther after hnumber hplaces (hbrackets.readRun hafter)
      | comma =>
          rw [convert_of_comma scope index s hkind, bind_assoc]
          exact (located_readComma hposition).bind fun after hafter =>
            ihOther after hnumber hplaces (hbrackets.readComma (fun _ h => h) hafter)
      | closing =>
          rw [convert_of_closing scope index s hkind, bind_assoc]
          exact (located_readClose hposition hbrackets).bind fun after hafter =>
            ihOther after hnumber hplaces (hbrackets.readClose hafter)

/-- The faults of tokens are in the text. -/
theorem located_ofTokens {length : Nat}
    (hproduct : scope.table.find? "*" .between = some product)
    (hname : ∀ text place, allowed place → Located allowed (scope.name text place))
    (hnumber : ∀ token ∈ tokens, token.kind = .number → Located allowed (scope.number token.text))
    (hplaces : ∀ token ∈ tokens, ∀ offset ≤ token.text.toList.length,
      allowed (token.position + offset))
    (hlength : allowed length) : Located allowed (ofTokens scope tokens length) := by
  refine located_convert_bind hproduct hname (fun s hbrackets => ?_) hnumber hplaces
    fun _ h => (List.not_mem_nil h).elim
  split_ifs
  · exact located_error _ hlength
  · exact located_finish hbrackets

end Postfix

namespace Environment

variable {env : Environment} {read : Reader} {table : OperatorTable}

/-! ## Operands -/

/-- The named constants are finite floats. -/
def HasConstants (env : Environment) : Prop :=
  env.mode.numeric = true → ∀ name value, constant? name = some value →
    ∃ rational, Reduce.rationalOf value = .ok rational

/-- Without substitutions and registered variables a name is a function or stands for itself, or
for a constant. -/
theorem operand_eq (hbindings : env.settings.bindings = []) (name : String) (position : Nat) :
    env.operand read [] name position =
      if env.functions.contains name then .error (.parse (.needsArguments name) position)
      else env.freeName name := by
  have hbinding : env.settings.binding? name = none := by simp [Settings.binding?, hbindings]
  simp only [operand, List.find?_nil, hbinding]

theorem located_operand (read : Reader) (hbindings : env.settings.bindings = [])
    (hconstants : env.HasConstants) (name : String) (position : Nat) (h : allowed position) :
    Located allowed (env.operand read [] name position) := by
  rw [operand_eq hbindings]
  split_ifs
  · exact located_error _ h
  · unfold freeName
    split
    next value hvalue =>
      split_ifs with hnumeric
      · obtain ⟨rational, hrational⟩ := hconstants hnumeric name value hvalue
        rw [hrational]
        exact located_ok _
      · exact located_ok _
    · exact located_ok _

section

variable {name : String} {position : Nat} {value : Expr}

theorem free_of_operand (read : Reader) (h : env.operand read [] name position = .ok value) :
    env.functions.contains name = false := by
  simp only [operand, List.find?_nil] at h
  split_ifs at h with hfunction
  exact (Bool.not_eq_true _).mp hfunction

/-- The place of a name matters for faults only. -/
theorem operand_of_place (h : env.operand read [] name position = .ok value) (position' : Nat) :
    env.operand read [] name position' = .ok value := by
  simp only [operand, List.find?_nil] at h ⊢
  split_ifs at h ⊢
  exact h

end

end Environment

end ExactAlgebra
