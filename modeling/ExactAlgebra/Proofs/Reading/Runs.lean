import ExactAlgebra.Proofs.Reading.Precedence

/-!
# Runs of operator characters

A run is split from the left, and at each place into the longest symbol of an operator with the
role that is due there.  After an operand these are operators after it, as many as there are,
then one operator between operands, and then operators before the next operand.
-/

namespace ExactAlgebra

/-! ## The longest operator -/

/-- No operator with a role has a longer symbol at the start of a run. -/
structure Longest (table : OperatorTable) (role : Role) (run : List Char) (operator : Operator)
    (rest : List Char) : Prop where
  find : table.find? operator.symbol role = some operator
  ne : operator.symbol.toList ≠ []
  run : run = operator.symbol.toList ++ rest
  longest : ∀ other ∈ table.operators, other.role = role →
    other.symbol.toList <+: operator.symbol.toList ++ rest →
    other.symbol.toList.length ≤ operator.symbol.toList.length

namespace OperatorTable

variable {table : OperatorTable} {role : Role} {operator : Operator} {symbol : String}
  {first : Char} {run rest rest' : List Char} {count taken : Nat}

theorem find?_spec (h : table.find? symbol role = some operator) :
    operator ∈ table.operators ∧ operator.symbol = symbol ∧ operator.role = role := by
  have hfound := List.find?_some h
  simp only [Bool.and_eq_true, beq_iff_eq] at hfound
  exact ⟨List.mem_of_find?_eq_some h, hfound⟩

theorem exists_find? (hmem : operator ∈ table.operators) (hsymbol : operator.symbol = symbol)
    (hrole : operator.role = role) : ∃ found, table.find? symbol role = some found := by
  rw [← Option.isSome_iff_exists, find?, List.find?_isSome]
  exact ⟨operator, hmem, by simp [hsymbol, hrole]⟩

/-- Shorter symbols are tried after longer ones. -/
theorem longestFrom?_eq_some
    (h : table.longestFrom? role first rest count = some (operator, taken)) :
    taken ≤ count ∧ table.find? (String.ofList (first :: rest.take taken)) role = some operator ∧
      ∀ longer, taken < longer → longer ≤ count →
        table.find? (String.ofList (first :: rest.take longer)) role = none := by
  fun_induction longestFrom? table role first rest count with
  | case1 =>
      obtain ⟨found, hfound, heq⟩ := Option.map_eq_some_iff.mp h
      cases heq
      exact ⟨le_rfl, hfound, fun _ _ _ => by omega⟩
  | case2 count found hfound =>
      cases h
      exact ⟨le_rfl, hfound, fun _ _ _ => by omega⟩
  | case3 count hnone ih =>
      obtain ⟨hle, hfound, hlonger⟩ := ih h
      refine ⟨by omega, hfound, fun longer hlt hcount => ?_⟩
      rcases Nat.lt_or_ge count longer with hlast | hrest
      · obtain rfl : longer = count + 1 := by omega
        exact hnone
      · exact hlonger longer hlt hrest

theorem longestFrom?_eq_none (h : table.longestFrom? role first rest count = none) :
    ∀ taken ≤ count, table.find? (String.ofList (first :: rest.take taken)) role = none := by
  fun_induction longestFrom? table role first rest count with
  | case1 =>
      intro taken htaken
      obtain rfl := Nat.le_zero.mp htaken
      exact Option.map_eq_none_iff.mp h
  | case2 => cases h
  | case3 count hnone ih =>
      intro taken htaken
      rcases Nat.lt_or_ge count taken with hlast | hrest
      · obtain rfl : taken = count + 1 := by omega
        exact hnone
      · exact ih h taken hrest

/-- What `longest?` finds is the longest operator. -/
theorem longest_of_longest? (h : table.longest? role run = some (operator, rest)) :
    Longest table role run operator rest := by
  cases run with
  | nil => cases h
  | cons first tail =>
      obtain ⟨⟨found, taken⟩, hfrom, heq⟩ := Option.map_eq_some_iff.mp h
      simp only [Prod.mk.injEq] at heq
      obtain ⟨rfl, rfl⟩ := heq
      obtain ⟨hle, hfound, hlonger⟩ := longestFrom?_eq_some hfrom
      obtain ⟨hmem, hsymbol, hrole⟩ := find?_spec hfound
      have hlist : found.symbol.toList = first :: tail.take taken := by
        rw [hsymbol, String.toList_ofList]
      have hrun : first :: tail = found.symbol.toList ++ tail.drop taken := by simp [hlist]
      refine ⟨hsymbol ▸ hfound, by simp [hlist], hrun, fun other hother hrole' hpre => ?_⟩
      rw [← hrun] at hpre
      by_contra hlt
      rw [hlist, List.length_cons, List.length_take, Nat.min_eq_left hle] at hlt
      have htake := List.prefix_iff_eq_take.mp hpre
      have hlength := hpre.length_le
      rw [List.length_cons] at hlength
      -- the symbol is one character and then as many as have been tried
      obtain ⟨longer, hlen⟩ : ∃ longer, other.symbol.toList.length = longer + 1 :=
        ⟨other.symbol.toList.length - 1, by omega⟩
      rw [hlen, List.take_succ_cons] at htake
      obtain ⟨clash, hclash⟩ := exists_find? hother
        (by rw [← htake, String.ofList_toList] :
          other.symbol = String.ofList (first :: tail.take longer)) hrole'
      rw [hlonger longer (by omega) (by omega)] at hclash
      cases hclash

theorem longest?_eq_none (h : table.longest? role run = none) :
    ¬ Longest table role run operator rest := by
  rintro ⟨hfind, hne, hrun, -⟩
  obtain ⟨first, more, hlist⟩ := List.exists_cons_of_ne_nil hne
  rw [hlist, List.cons_append] at hrun
  subst hrun
  have hnone := longestFrom?_eq_none (Option.map_eq_none_iff.mp h) more.length (by simp)
  rw [List.take_left, ← hlist, String.ofList_toList, hfind] at hnone
  cases hnone

end OperatorTable

variable {table : OperatorTable} {role : Role} {operator operator' : Operator}
  {run rest rest' : List Char}

theorem Longest.role_eq (h : Longest table role run operator rest) : operator.role = role :=
  (OperatorTable.find?_spec h.find).2.2

theorem Longest.mem (h : Longest table role run operator rest) : operator ∈ table.operators :=
  (OperatorTable.find?_spec h.find).1

theorem Longest.unique (h : Longest table role run operator rest)
    (h' : Longest table role run operator' rest') : operator' = operator ∧ rest' = rest := by
  have hlength : operator.symbol.toList.length = operator'.symbol.toList.length :=
    le_antisymm (h'.longest _ h.mem h.role_eq (h'.run ▸ h.run ▸ List.prefix_append _ _))
      (h.longest _ h'.mem h'.role_eq (h.run ▸ h'.run ▸ List.prefix_append _ _))
  obtain ⟨hsymbol, hrest⟩ := List.append_inj (h.run.symm.trans h'.run) hlength
  have hfind := h.find
  rw [String.toList_inj.mp hsymbol, h'.find] at hfind
  exact ⟨Option.some.inj hfind, hrest.symm⟩

theorem longest?_eq_some_iff :
    table.longest? role run = some (operator, rest) ↔ Longest table role run operator rest := by
  refine ⟨OperatorTable.longest_of_longest?, fun h => ?_⟩
  cases hfound : table.longest? role run with
  | none => exact absurd h (OperatorTable.longest?_eq_none hfound)
  | some found =>
      obtain ⟨rfl, rfl⟩ := h.unique (OperatorTable.longest_of_longest? hfound)
      rfl

/-! ## Chains of operators -/

/-- Operators with a role that a run starts with, and the rest of the run. -/
inductive Chain (table : OperatorTable) (role : Role) :
    List Char → List Operator → List Char → Prop
  | nil (run : List Char) : Chain table role run [] run
  | cons {run more rest : List Char} {operator : Operator} {operators : List Operator}
      (h : Longest table role run operator more) (hmore : Chain table role more operators rest) :
      Chain table role run (operator :: operators) rest

/-- A chain that cannot be continued. -/
def Stops (table : OperatorTable) (role : Role) (rest : List Char) : Prop :=
  ∀ operator more, ¬ Longest table role rest operator more

theorem stops_iff : Stops table role rest ↔ table.longest? role rest = none := by
  simp only [Stops, ← longest?_eq_some_iff, Option.eq_none_iff_forall_ne_some, Prod.forall, ne_eq]

theorem stops_nil : Stops table role [] := stops_iff.mpr rfl

variable {operators operators' : List Operator}

/-- The symbols of a chain make up the run before the rest. -/
theorem Chain.run_eq (h : Chain table role run operators rest) :
    run = (operators.flatMap fun operator => operator.symbol.toList) ++ rest := by
  induction h with
  | nil => rfl
  | cons h _ ih => rw [h.run, List.flatMap_cons, List.append_assoc, ← ih]

theorem Chain.role_eq (h : Chain table role run operators rest) :
    ∀ operator ∈ operators, operator.role = role := by
  induction h with
  | nil => simp
  | cons h _ ih => exact List.forall_mem_cons.mpr ⟨h.role_eq, ih⟩

theorem Chain.mem (h : Chain table role run operators rest) :
    ∀ operator ∈ operators, operator ∈ table.operators := by
  induction h with
  | nil => simp
  | cons h _ ih => exact List.forall_mem_cons.mpr ⟨h.mem, ih⟩

theorem Chain.unique (h : Chain table role run operators rest)
    (h' : Chain table role run operators' rest') (hstops : Stops table role rest)
    (hstops' : Stops table role rest') : operators' = operators ∧ rest' = rest := by
  induction h generalizing operators' with
  | nil =>
      cases h' with
      | nil => exact ⟨rfl, rfl⟩
      | cons hlongest _ => exact absurd hlongest (hstops _ _)
  | cons h _ ih =>
      cases h' with
      | nil => exact absurd h (hstops' _ _)
      | cons hlongest hmore =>
          obtain ⟨rfl, rfl⟩ := h.unique hlongest
          obtain ⟨rfl, rfl⟩ := ih hmore hstops
          exact ⟨rfl, rfl⟩

namespace Postfix

variable {position : Nat}

theorem prefixes_iff : prefixes table position run = .ok operators ↔
    Chain table .before run operators [] := by
  fun_induction prefixes table position run generalizing operators with
  | case1 =>
      constructor
      · intro h
        cases h
        exact .nil []
      · intro h
        cases h with
        | nil => rfl
        | cons h _ => exact absurd h (stops_nil _ _)
  | case2 position first more hnone =>
      refine ⟨nofun, fun h => ?_⟩
      cases h with
      | cons h _ => exact absurd h (stops_iff.mpr hnone _ _)
  | case3 position first more operator rest hsome ih =>
      have hlongest := longest?_eq_some_iff.mp hsome
      constructor
      · intro h
        obtain ⟨others, hothers, h⟩ := exists_of_bind h
        cases h
        exact .cons hlongest (ih.mp hothers)
      · intro h
        cases h with
        | cons h hmore =>
            obtain ⟨rfl, rfl⟩ := hlongest.unique h
            rw [ih.mpr hmore]
            rfl

/-- The operators at the start of a run are a chain that cannot be continued. -/
theorem suffixes_spec (table : OperatorTable) (position : Nat) (run : List Char) :
    Chain table .after run (suffixes table position run).1 (suffixes table position run).2.2 ∧
      Stops table .after (suffixes table position run).2.2 := by
  fun_induction suffixes table position run with
  | case1 position run hnone => exact ⟨.nil run, stops_iff.mpr hnone⟩
  | case2 position run operator rest hsome others place left hothers ih =>
      rw [hothers] at ih
      exact ⟨.cons (longest?_eq_some_iff.mp hsome) ih.1, ih.2⟩

end Postfix

/-! ## Runs before and after operands -/

/-- The operators of a run.  The flags say whether an operand is expected before the run and
after it. -/
inductive SplitsRun (table : OperatorTable) :
    (expecting : Bool) → List Char → List Operator → (expecting' : Bool) → Prop
  | before {run : List Char} {operators : List Operator}
      (h : Chain table .before run operators []) :
      SplitsRun table true run operators true
  | after {run : List Char} {operators : List Operator} (h : Chain table .after run operators []) :
      SplitsRun table false run operators false
  | between {run rest more : List Char} {after before : List Operator} {operator : Operator}
      (hafter : Chain table .after run after rest) (hstops : Stops table .after rest)
      (h : Longest table .between rest operator more)
      (hbefore : Chain table .before more before []) :
      SplitsRun table false run (after ++ operator :: before) true

/-- Every character of a run belongs to one of its operators. -/
theorem SplitsRun.run_eq {expecting expecting' : Bool}
    (h : SplitsRun table expecting run operators expecting') :
    run = operators.flatMap fun operator => operator.symbol.toList := by
  cases h with
  | before h | after h => simpa using h.run_eq
  | between hafter _ h hbefore =>
      rw [hafter.run_eq, h.run, hbefore.run_eq]
      simp

theorem SplitsRun.mem {expecting expecting' : Bool}
    (h : SplitsRun table expecting run operators expecting') :
    ∀ operator ∈ operators, operator ∈ table.operators := by
  cases h with
  | before h | after h => exact h.mem
  | between hafter _ h hbefore =>
      exact List.forall_mem_append.mpr
        ⟨hafter.mem, List.forall_mem_cons.mpr ⟨h.mem, hbefore.mem⟩⟩

namespace Postfix

variable {α : Type} {scope : Grammar α} {product : Operator} {s s' : Conversion α}
  {position : Nat}

/-- Operators after an operand are put out at once. -/
theorem foldlM_after (h : ∀ operator ∈ operators, operator.role = .after)
    (hs : s.expecting = false) :
    (operators.map Atom.operator).foldlM (advance scope product) s =
      some { s with output := (operators.map PostfixItem.operator).reverse ++ s.output } := by
  induction operators generalizing s with
  | nil => rfl
  | cons operator operators ih =>
      obtain ⟨hrole, hoperators⟩ := List.forall_mem_cons.mp h
      have hstep : advanceOperator operator s =
          some { s with output := .operator operator :: s.output } := by
        simp only [advanceOperator, hrole, hs]
      have hrest := ih (s := { s with output := .operator operator :: s.output }) hoperators hs
      rw [List.map_cons, List.foldlM_cons, advance, hstep, Option.bind_eq_bind, Option.bind_some,
        hrest]
      simp

/-- Operators before an operand wait for it. -/
theorem foldlM_before (h : ∀ operator ∈ operators, operator.role = .before)
    (hs : s.expecting = true) :
    (operators.map Atom.operator).foldlM (advance scope product) s =
      some (waitBefore operators s) := by
  induction operators generalizing s with
  | nil => simp [waitBefore, ← hs]
  | cons operator operators ih =>
      obtain ⟨hrole, hoperators⟩ := List.forall_mem_cons.mp h
      have hstep : advanceOperator operator s =
          some { s with stack := .operator operator :: s.stack } := by
        simp only [advanceOperator, hrole, hs]
      have hrest := ih (s := { s with stack := .operator operator :: s.stack }) hoperators hs
      rw [List.map_cons, List.foldlM_cons, advance, hstep, Option.bind_eq_bind, Option.bind_some,
        hrest]
      simp [waitBefore]

/-- The operators of a run after an operand. -/
theorem foldlM_between {after before : List Operator}
    (hafter : ∀ operator ∈ after, operator.role = .after) (hoperator : operator.role = .between)
    (hbefore : ∀ operator ∈ before, operator.role = .before) (hs : s.expecting = false) :
    ((after ++ operator :: before).map Atom.operator).foldlM (advance scope product) s =
      some (waitBefore before (push operator
        { s with output := (after.map PostfixItem.operator).reverse ++ s.output })) := by
  have hstep : advanceOperator operator
      { s with output := (after.map PostfixItem.operator).reverse ++ s.output } =
        some { push operator { s with output := (after.map PostfixItem.operator).reverse ++
          s.output } with expecting := true } := by
    simp only [advanceOperator, hoperator, hs]
  rw [List.map_append, List.map_cons, List.foldlM_append, foldlM_after hafter hs,
    Option.bind_eq_bind, Option.bind_some, List.foldlM_cons, advance, hstep, Option.bind_eq_bind,
    Option.bind_some, foldlM_before hbefore rfl]
  rfl

theorem expecting_of_splitsRun {expecting expecting' : Bool}
    (h : SplitsRun table expecting run operators expecting') (hs : s.expecting = expecting)
    (hfold : (operators.map Atom.operator).foldlM (advance scope product) s = some s') :
    s'.expecting = expecting' := by
  cases h with
  | before h =>
      rw [foldlM_before h.role_eq hs] at hfold
      rw [← Option.some.inj hfold]
      rfl
  | after h =>
      rw [foldlM_after h.role_eq hs] at hfold
      rw [← Option.some.inj hfold]
      exact hs
  | between hafter _ h hbefore =>
      rw [foldlM_between hafter.role_eq h.role_eq hbefore.role_eq hs] at hfold
      rw [← Option.some.inj hfold]
      rfl

/-- A run where an operand is expected is a chain of operators before it. -/
theorem readRun_iff_of_expecting (scope : Grammar α) (product : Operator) (position : Nat)
    (hs : s.expecting = true) :
    readRun table position run s = .ok s' ↔
      ∃ operators, SplitsRun table true run operators s'.expecting ∧
        (operators.map Atom.operator).foldlM (advance scope product) s = some s' := by
  rw [readRun, if_pos hs]
  constructor
  · intro h
    obtain ⟨operators, hoperators, h⟩ := exists_of_bind h
    cases h
    have hchain := prefixes_iff.mp hoperators
    exact ⟨operators, .before hchain, foldlM_before hchain.role_eq hs⟩
  · rintro ⟨operators, hsplits, h⟩
    generalize s'.expecting = expecting at hsplits
    cases hsplits with
    | before hchain =>
        rw [foldlM_before hchain.role_eq hs] at h
        rw [prefixes_iff.mpr hchain, ← Option.some.inj h]
        rfl

/-- A run is read as the operators that it is split into. -/
theorem readRun_iff (scope : Grammar α) (product : Operator) (position : Nat) :
    readRun table position run s = .ok s' ↔
    ∃ operators, SplitsRun table s.expecting run operators s'.expecting ∧
      (operators.map Atom.operator).foldlM (advance scope product) s = some s' := by
  cases hs : s.expecting with
  | true => exact readRun_iff_of_expecting scope product position hs
  | false =>
      obtain ⟨hchain, hstops⟩ := suffixes_spec table position run
      rw [readRun, if_neg (by simp [hs])]
      generalize suffixes table position run = found at hchain hstops
      obtain ⟨after, place, rest⟩ := found
      dsimp only at hchain hstops ⊢
      constructor
      · intro h
        split_ifs at h with hrest
        · cases h
          obtain rfl := List.isEmpty_iff.mp hrest
          refine ⟨after, ?_, foldlM_after hchain.role_eq hs⟩
          rw [hs]
          exact .after hchain
        · split at h
          next => cases h
          next operator more hlongest =>
            obtain ⟨before, hbefore, h⟩ := exists_of_bind h
            cases h
            have hlongest := longest?_eq_some_iff.mp hlongest
            have hbefore := prefixes_iff.mp hbefore
            exact ⟨after ++ operator :: before, .between hchain hstops hlongest hbefore,
              foldlM_between hchain.role_eq hlongest.role_eq hbefore.role_eq hs⟩
      · rintro ⟨operators, hsplits, h⟩
        generalize s'.expecting = expecting at hsplits
        cases hsplits with
        | after hafter =>
            obtain ⟨rfl, rfl⟩ := hchain.unique hafter hstops stops_nil
            rw [foldlM_after hafter.role_eq hs] at h
            rw [← Option.some.inj h]
            rfl
        | @between _ left _ _ _ _ hafter hstops' hlongest hbefore =>
            obtain ⟨rfl, rfl⟩ := hchain.unique hafter hstops hstops'
            rw [foldlM_between hafter.role_eq hlongest.role_eq hbefore.role_eq hs] at h
            have hrest : ¬ left.isEmpty = true := fun hempty =>
              stops_nil _ _ (List.isEmpty_iff.mp hempty ▸ hlongest)
            rw [if_neg hrest, longest?_eq_some_iff.mpr hlongest, ← Option.some.inj h]
            simp only [prefixes_iff.mpr hbefore, bind, Except.bind, pure, Except.pure]

end Postfix

end ExactAlgebra
