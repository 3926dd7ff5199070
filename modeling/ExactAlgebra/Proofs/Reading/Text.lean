import ExactAlgebra.Proofs.Reading.Scan

/-!
# Texts of phrases

The text of a well-formed phrase is read as the value of the phrase.
-/

namespace ExactAlgebra

open Postfix Phrase Token

/-! ## Numerals -/

namespace Numeral

variable {digits : List Char}

theorem digitRun_digits (h : ∀ c ∈ digits, Text.isDecimalDigit c = true) (after : Bool) :
    digitRun after digits = (digits, []) := by
  induction digits generalizing after with
  | nil => rfl
  | cons c rest ih =>
      obtain ⟨hc, hrest⟩ := List.forall_mem_cons.mp h
      rw [digitRun, if_pos hc, ih hrest]

theorem trimBlanks_digits (h : ∀ c ∈ digits, Text.isBlank c = false) :
    Text.trimBlanks digits = digits := by
  have hdrop : ∀ {text : List Char}, (∀ c ∈ text, Text.isBlank c = false) →
      text.dropWhile Text.isBlank = text := by
    intro text htext
    cases text with
    | nil => rfl
    | cons c rest => rw [List.dropWhile_cons, htext c List.mem_cons_self, if_neg Bool.false_ne_true]
  rw [Text.trimBlanks, hdrop h, hdrop fun c hc => h c (List.mem_reverse.mp hc),
    List.reverse_reverse]

theorem digitsValue_eq (h : ∀ c ∈ digits, c.isDigit = true) :
    Text.digitsValue digits = Nat.ofDigitChars 10 digits 0 := by
  have hvalue : ∀ c : Char, c.isDigit = true →
      (Text.digitValue? c).getD 0 = c.toNat - '0'.toNat := by
    intro c hc
    obtain ⟨n, hn, rfl⟩ := exists_ofNat (toNat_lt_of_isDigit hc)
    have hall : ∀ n < 128, (Char.ofNat n).isDigit = true →
        (Text.digitValue? (Char.ofNat n)).getD 0 = (Char.ofNat n).toNat - '0'.toNat := by
      decide +kernel
    exact hall n hn hc
  rw [Text.digitsValue, Nat.ofDigitChars]
  exact List.foldl_ext _ _ _ fun total c hc => by rw [hvalue c (h c hc)]

/-- The decimal text of a number denotes it. -/
theorem toRat_toString (value : Nat) : toRat (toString value) = .ok (value : Rat) := by
  obtain ⟨hne, hdigits⟩ := toDigits_spec value
  have hdecimal : ∀ c ∈ Nat.toDigits 10 value, Text.isDecimalDigit c = true :=
    fun c hc => (digit_spec (hdigits c hc)).1
  have hvalue : Text.digitsValue (Nat.toDigits 10 value) = value := by
    rw [digitsValue_eq hdigits, Nat.ofDigitChars_toDigits (by omega) le_rfl]
  have hsign : signOf (Nat.toDigits 10 value) = (false, Nat.toDigits 10 value) := by
    obtain ⟨first, more, hlist⟩ := List.exists_cons_of_ne_nil hne
    have hfirst := hdigits first (by simp [hlist])
    rw [hlist, signOf.eq_def]
    split
    next heq =>
      obtain rfl := (List.cons.inj heq).1
      exact absurd hfirst (by decide)
    next heq =>
      obtain rfl := (List.cons.inj heq).1
      exact absurd hfirst (by decide)
    next => rfl
  have hreading : reading? (Nat.toDigits 10 value) = some (.number value) := by
    rw [reading?, trimBlanks_digits fun c hc => (digit_spec (hdigits c hc)).2.1, hsign]
    have hempty : (Nat.toDigits 10 value).isEmpty = false := by simp
    simp [magnitude?, Numeral.digits, digitRun_digits hdecimal, exponent?, hvalue, hempty,
      Ratio.scaled]
  rw [toRat, toList_toString, hreading]

end Numeral

/-- A name that is no function stands for itself. -/
theorem Environment.operand_standard (read : Reader) {name : String}
    (hfree : FunctionTable.standard.contains name = false) (position : Nat) :
    Environment.standard.operand read [] name position = .ok (.named name) := by
  have hfree' : Environment.standard.functions.contains name = false := hfree
  have hbinding : Environment.standard.settings.binding? name = none := rfl
  have hnumeric : Environment.standard.mode.numeric = false := rfl
  simp only [Environment.operand, List.find?_nil, hfree', Bool.false_eq_true, if_false, hbinding,
    Environment.freeName, hnumeric]
  split <;> rfl

/-! ## Spellings -/

namespace Phrase

/-- Lexemes that can be told apart, and do not start or end in the middle of a phrase. -/
structure IsSpelling (signed : Bool) (lexemes : List Lexeme) : Prop where
  lexeme : ∀ l ∈ lexemes, IsLexeme l
  chain : lexemes.IsChain Apart
  ne : lexemes ≠ []
  first : ∀ l ∈ lexemes.head?, signed = false → l.1 ≠ .operators
  last : ∀ l ∈ lexemes.getLast?, l.1 ≠ .operators

variable {signed : Bool} {level : Int} {e : Phrase} {args : List Phrase} {l l' : Lexeme}
  {lexemes lexemes' : List Lexeme}

theorem isSpelling_singleton (h : IsLexeme l) (hkind : l.1 ≠ .operators) :
    IsSpelling signed [l] := by
  constructor <;> simp [h, hkind]

/-- A spelling after one more lexeme. -/
theorem IsSpelling.cons {sign : Bool} (h : IsSpelling sign lexemes) (hl : IsLexeme l)
    (hapart : ∀ b ∈ lexemes.head?, Apart l b) (hsign : signed = false → l.1 ≠ .operators) :
    IsSpelling signed (l :: lexemes) where
  lexeme := List.forall_mem_cons.mpr ⟨hl, h.lexeme⟩
  chain := List.isChain_cons.mpr ⟨hapart, h.chain⟩
  ne := List.cons_ne_nil _ _
  first := by simpa using hsign
  last := by
    obtain ⟨first, more, rfl⟩ := List.exists_cons_of_ne_nil h.ne
    rw [List.getLast?_cons_cons]
    exact h.last

/-- Two spellings of which the second can follow the first. -/
theorem IsSpelling.append {sign : Bool} (h : IsSpelling signed lexemes)
    (h' : IsSpelling sign lexemes') (hfirst : ∀ b ∈ lexemes'.head?, b.1 ≠ .number ∧ b.1 ≠ .name) :
    IsSpelling signed (lexemes ++ lexemes') where
  lexeme := List.forall_mem_append.mpr ⟨h.lexeme, h'.lexeme⟩
  chain := List.isChain_append.mpr ⟨h.chain, h'.chain, fun a ha b hb =>
    ⟨fun _ => hfirst b hb, fun hoperator => absurd hoperator (h.last a ha)⟩⟩
  ne := by simp [h.ne]
  first := by
    obtain ⟨first, more, rfl⟩ := List.exists_cons_of_ne_nil h.ne
    simpa using h.first first rfl
  last := by
    rw [List.getLast?_append_of_ne_nil _ h'.ne]
    exact h'.last

theorem IsSpelling.enclosed (h : IsSpelling true lexemes) :
    IsSpelling signed ((.opening, "(") :: lexemes ++ [(.closing, ")")]) := by
  have hend : IsSpelling true [(.closing, ")")] := isSpelling_singleton .closing (by simp)
  exact (h.append hend (by simp)).cons .opening (by simp [Apart]) (by simp)

theorem isSpelling_args (hargs : ∀ arg ∈ args, IsSpelling true arg.lexemes) (hne : args ≠ []) :
    IsSpelling true (argsLexemes args) := by
  induction args with
  | nil => exact absurd rfl hne
  | cons arg more ih =>
      obtain ⟨harg, hmore⟩ := List.forall_mem_cons.mp hargs
      match more with
      | [] => exact harg
      | second :: others =>
          rw [argsLexemes]
          · have hrest : IsSpelling true ((.comma, ",") :: argsLexemes (second :: others)) :=
              (ih hmore (by simp)).cons .comma (by simp [Apart]) (by simp)
            exact harg.append hrest (by simp)
          · simp

/-- The lexemes of a well-formed phrase can be told apart. -/
theorem Formed.isSpelling (h : Formed .standard signed level e) :
    IsSpelling signed e.lexemes := by
  induction h with
  | number value => exact isSpelling_singleton (.number value) (by simp)
  | name hname => exact isSpelling_singleton (.name hname) (by simp)
  | call hname _ _ hne _ ih =>
      have hargs : IsSpelling true ((.opening, "(") :: argsLexemes _ ++ [(.closing, ")")]) :=
        (isSpelling_args ih hne).enclosed
      exact hargs.cons (.name hname) (by simp [Apart]) (by simp)
  | bracket _ ih => exact ih.enclosed
  | negate _ _ ih =>
      exact ih.cons (.operator List.mem_cons_self) (fun b hb =>
        ⟨by simp, fun _ => ih.first b hb rfl⟩) (by simp)
  | between hoperator _ _ _ _ _ iha ihb =>
      have hrest : IsSpelling true ((.operators, _) :: _) :=
        ihb.cons (.operator (List.mem_cons_of_mem _ hoperator))
          (fun b hb => ⟨by simp, fun _ => ihb.first b hb rfl⟩) (by simp)
      exact iha.append hrest (by simp)

/-! ## Reading -/

/-- The text of a phrase. -/
def text (e : Phrase) : String := String.ofList (e.lexemes.flatMap spelled)

theorem lexemes_bracket (body : Phrase) :
    (bracket body).lexemes = (.opening, "(") :: body.lexemes ++ [(.closing, ")")] := rfl

theorem lexemes_before (operator : Operator) (body : Phrase) :
    (before operator body).lexemes = (.operators, operator.symbol) :: body.lexemes := rfl

theorem lexemes_between (operator : Operator) (a b : Phrase) :
    (between operator a b).lexemes = a.lexemes ++ (.operators, operator.symbol) :: b.lexemes := rfl

theorem lexemes_call (function : String) (args : List Phrase) : (call function args).lexemes =
    (.name, function) :: (.opening, "(") :: argsLexemes args ++ [(.closing, ")")] := rfl

@[simp] theorem text_number (value : Nat) : (number value).text = toString value := by
  change String.ofList ([(.number, toString value)].flatMap spelled) = _
  simp only [List.flatMap_singleton, spelled, reduceCtorEq, if_false, String.ofList_toList]

@[simp] theorem text_name (name : String) : (Phrase.name name).text = name := by
  change String.ofList ([(.name, name)].flatMap spelled) = _
  simp [spelled]

@[simp] theorem text_bracket (body : Phrase) :
    (bracket body).text = Style.bracketed body.text := by
  simp [text, lexemes_bracket, spelled, Style.bracketed, String.append_assoc]

@[simp] theorem text_before (operator : Operator) (body : Phrase) :
    (before operator body).text = operator.symbol ++ body.text := by
  simp [text, lexemes_before, spelled]

@[simp] theorem text_between (operator : Operator) (a b : Phrase) :
    (between operator a b).text = a.text ++ operator.symbol ++ b.text := by
  simp [text, lexemes_between, spelled, String.append_assoc]

theorem text_args (args : List Phrase) : String.ofList ((argsLexemes args).flatMap spelled) =
    ", ".intercalate (args.map text) := by
  induction args with
  | nil => rfl
  | cons arg more ih =>
      cases more with
      | nil => simp [argsLexemes, text]
      | cons second others =>
          have hcomma (rest : String) : "," ++ (" " ++ rest) = ", " ++ rest :=
            String.append_assoc.symm
          rw [List.map_cons, List.map_cons, String.intercalate_cons_cons, ← List.map_cons, ← ih,
            argsLexemes]
          · simp [text, spelled, String.append_assoc, hcomma]
          · simp

@[simp] theorem text_call (function : String) (args : List Phrase) :
    (call function args).text =
      function ++ Style.bracketed (", ".intercalate (args.map text)) := by
  rw [← text_args]
  simp [text, lexemes_call, spelled, Style.bracketed, String.append_assoc]

/-- The text of a well-formed phrase is not empty, and starts with a sign only if one is
allowed. -/
theorem Formed.exists_toList (h : Formed .standard signed level e) :
    ∃ c rest, e.text.toList = c :: rest ∧ (signed = false → c ≠ '-') := by
  obtain ⟨hlexeme, -, hne, hfirst, -⟩ := h.isSpelling
  obtain ⟨l, more, hlist⟩ := List.exists_cons_of_ne_nil hne
  obtain ⟨c, others, hfront, -, htoken⟩ := (hlexeme l (by simp [hlist])).lexeme?
  obtain ⟨after, hafter⟩ := exists_spelled_eq l
  refine ⟨c, others ++ (after ++ more.flatMap spelled), ?_, ?_⟩
  · rw [text, String.toList_ofList, hlist, List.flatMap_cons, hafter, hfront]
    simp
  · rintro hsigned rfl
    -- a minus sign starts no token but an operator
    have hminus := htoken [] (by simp [Stops])
    rw [Token.lexeme?, numberLength_eq_zero (by decide) (by decide)] at hminus
    exact hfirst l (by simp [hlist]) hsigned (congrArg Prod.fst (Option.some.inj hminus)).symm

theorem Formed.text_ne (h : Formed .standard signed level e) : e.text ≠ "" := by
  obtain ⟨c, rest, hlist, -⟩ := h.exists_toList
  intro hempty
  rw [hempty] at hlist
  cases hlist

theorem Formed.front?_ne (h : Formed .standard false level e) : e.text.front? ≠ some '-' := by
  obtain ⟨c, rest, hlist, hc⟩ := h.exists_toList
  rw [String.front?_eq, hlist]
  simpa using hc rfl

theorem reads_grammar (read : Reader) :
    (Environment.standard.grammar read .standard []).Reads .standard where
  table := rfl
  isFunction := rfl
  accepts := rfl
  number value := by
    simp only [Environment.grammar, Numeral.toRat_toString, bind, Except.bind]
    rfl
  name _ position hfree := Environment.operand_standard read hfree position

/-- The text of a well-formed phrase is read as its value. -/
theorem Formed.readWith (h : Formed .standard signed level e) (read : Reader) :
    Environment.standard.readWith read .standard [] e.text = e.value .standard read := by
  obtain ⟨hlexeme, hchain, hne, -, -⟩ := h.isSpelling
  obtain ⟨tokens, hscan, htokens⟩ := exists_scan hlexeme hchain 0 false
  have hofText : Environment.standard.tokens .standard e.text = .ok tokens := by
    rw [Environment.tokens, ofText, text, String.toList_ofList]
    exact hscan
  have hempty : tokens.isEmpty = false := by
    cases tokens with
    | nil => exact absurd htokens.symm hne
    | cons => rfl
  have hpostfix := ofTokens_eq (reads_grammar read) h htokens e.text.length
  have hvalue : Environment.standard.evaluateItems read [] (e.items ++ []) = _ :=
    h.evaluateItems [] []
  rw [List.append_nil] at hvalue
  rw [Environment.readWith, hofText]
  simp only [bind, Except.bind, hempty, Bool.false_eq_true, if_false, hpostfix, hvalue]
  cases e.value .standard read <;> rfl

end Phrase

end ExactAlgebra
