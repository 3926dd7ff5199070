import ExactAlgebra.Proofs.Reading.Convert

/-!
# Tokens of phrases

A text that spells lexemes one after the other is split into them again, provided that no
two adjacent ones could be read as one.  The lexemes of a well-formed phrase are such.
-/

namespace ExactAlgebra

open Postfix Phrase Token

namespace Token

/-! ## Characters -/

/-- The characters of names and operators in the standard notation. -/
def standardAlphabet : Alphabet := Environment.standard.alphabet .standard

theorem exists_ofNat {c : Char} (hc : c.toNat < 128) : ∃ n < 128, c = Char.ofNat n :=
  ⟨c.toNat, hc, (Char.ofNat_toNat c).symm⟩

theorem isLetter_standard (c : Char) : isLetter standardAlphabet c = (c.isAlpha || c == '_') := by
  simp [isLetter, standardAlphabet, Environment.alphabet, Environment.standard, Settings.standard]

theorem toNat_lt_of_isAlpha {c : Char} (h : (c.isAlpha || c == '_') = true) : c.toNat < 128 := by
  rcases Bool.or_eq_true_iff.mp h with halpha | hunderscore
  · simp only [Char.isAlpha, Char.isUpper, Char.isLower, Bool.or_eq_true, Bool.and_eq_true,
      decide_eq_true_eq, ge_iff_le, UInt32.le_iff_toNat_le] at halpha
    change (_ ∧ c.toNat ≤ 90) ∨ (_ ∧ c.toNat ≤ 122) at halpha
    omega
  · rw [beq_iff_eq.mp hunderscore]
    decide

theorem toNat_lt_of_isDigit {c : Char} (h : c.isDigit = true) : c.toNat < 128 := by
  simp only [Char.isDigit, Bool.and_eq_true, decide_eq_true_eq, ge_iff_le,
    UInt32.le_iff_toNat_le] at h
  have : c.toNat ≤ 57 := h.2
  omega

/-- Letters start no other token, and no token goes on with one but a name. -/
theorem letter_spec {c : Char} (h : isLetter standardAlphabet c = true) :
    Text.isDecimalDigit c = false ∧ c ≠ '.' ∧ Text.isBlank c = false ∧
      standardAlphabet.isOperator c = false := by
  rw [isLetter_standard] at h
  have hall : ∀ n < 128, ((Char.ofNat n).isAlpha || Char.ofNat n == '_') = true →
      Text.isDecimalDigit (Char.ofNat n) = false ∧ Char.ofNat n ≠ '.' ∧
        Text.isBlank (Char.ofNat n) = false ∧
        standardAlphabet.isOperator (Char.ofNat n) = false := by
    decide +kernel
  obtain ⟨n, hn, rfl⟩ := exists_ofNat (toNat_lt_of_isAlpha h)
  exact hall n hn h

theorem digit_spec {c : Char} (h : c.isDigit = true) :
    Text.isDecimalDigit c = true ∧ Text.isBlank c = false ∧
      standardAlphabet.isOperator c = false := by
  have hall : ∀ n < 128, (Char.ofNat n).isDigit = true →
      Text.isDecimalDigit (Char.ofNat n) = true ∧ Text.isBlank (Char.ofNat n) = false ∧
        standardAlphabet.isOperator (Char.ofNat n) = false := by
    decide +kernel
  obtain ⟨n, hn, rfl⟩ := exists_ofNat (toNat_lt_of_isDigit h)
  exact hall n hn h

/-- The characters that operators and brackets are written with. -/
def marks : List Char := ['+', '-', '*', '/', '^', '(', ')', ',']

theorem mark_spec {c : Char} (h : c ∈ marks) :
    Text.isDecimalDigit c = false ∧ c ≠ '.' ∧ c ≠ 'e' ∧ c ≠ 'E' ∧ Text.isBlank c = false ∧
      continuesName standardAlphabet c = false := by
  simp only [marks, List.mem_cons, List.not_mem_nil, or_false] at h
  rcases h with rfl | rfl | rfl | rfl | rfl | rfl | rfl | rfl <;> decide +kernel

/-! ## Lengths of tokens -/

variable {first : Char} {more tail : List Char}

theorem takeWhile_append_of_stop {p : Char → Bool} (hmore : ∀ c ∈ more, p c = true)
    (htail : ∀ c ∈ tail.head?, p c = false) : (more ++ tail).takeWhile p = more := by
  rw [List.takeWhile_append_of_pos hmore]
  cases tail with
  | nil => simp
  | cons c others =>
      have hstop : p c = false := htail c rfl
      rw [List.takeWhile_cons, hstop]
      simp

theorem numberLength_eq_zero (hdigit : Text.isDecimalDigit first = false) (hpoint : first ≠ '.') :
    numberLength (first :: tail) = 0 := by
  have hzero : digitsLength (first :: tail) = 0 := by simp [digitsLength, hdigit]
  have hmantissa : mantissaLength (first :: tail) = 0 := by
    rw [mantissaLength, hzero, List.drop_zero]
    split
    next heq => exact absurd (List.cons.inj heq).1 hpoint
    next => rfl
  rw [numberLength, hmantissa]
  rfl

/-- A numeral ends where no digit, point or exponent follows. -/
theorem numberLength_digits {digits : List Char} (hne : digits ≠ [])
    (hdigits : ∀ c ∈ digits, Text.isDecimalDigit c = true)
    (htail : ∀ c ∈ tail.head?, Text.isDecimalDigit c = false ∧ c ≠ '.' ∧ c ≠ 'e' ∧ c ≠ 'E') :
    numberLength (digits ++ tail) = digits.length := by
  have hlength : digitsLength (digits ++ tail) = digits.length := by
    rw [digitsLength, takeWhile_append_of_stop hdigits fun c hc => (htail c hc).1]
  have hmantissa : mantissaLength (digits ++ tail) = digits.length := by
    rw [mantissaLength, hlength, List.drop_left]
    split
    next rest =>  exact absurd rfl (htail '.' rfl).2.1
    next => rfl
  have hexponent : exponentLength tail = 0 := by
    cases tail with
    | nil => rfl
    | cons c others =>
        obtain ⟨-, -, hlower, hupper⟩ := htail c rfl
        simp [exponentLength, hlower, hupper]
  have hpos := List.length_pos_iff.mpr hne
  rw [numberLength, hmantissa, List.drop_left, hexponent, if_neg (by omega), add_zero]

/-! ## Lexemes -/

/-- A text that one token has. -/
inductive IsLexeme : Lexeme → Prop
  | number (value : Nat) : IsLexeme (.number, toString value)
  | name {text : String} (h : IsName standardAlphabet text) : IsLexeme (.name, text)
  | operator {operator : Operator} (h : operator ∈ negation :: infixes) :
      IsLexeme (.operators, operator.symbol)
  | opening : IsLexeme (.opening, "(")
  | closing : IsLexeme (.closing, ")")
  | comma : IsLexeme (.comma, ",")

/-- Text at whose start a token of a class ends. -/
def Stops (kind : TokenKind) (tail : List Char) : Prop :=
  ∀ c ∈ tail.head?,
    (kind = .number → Text.isDecimalDigit c = false ∧ c ≠ '.' ∧ c ≠ 'e' ∧ c ≠ 'E') ∧
    (kind = .name → continuesName standardAlphabet c = false) ∧
    (kind = .operators → standardAlphabet.isOperator c = false)

theorem symbol_eq {operator : Operator} (h : operator ∈ negation :: infixes) :
    ∃ c ∈ marks, operator.symbol.toList = [c] ∧ standardAlphabet.isOperator c = true ∧
      isLetter standardAlphabet c = false ∧ c ≠ '(' ∧ c ≠ ')' ∧ c ≠ ',' := by
  simp only [infixes, List.mem_cons, List.not_mem_nil, or_false] at h
  rcases h with rfl | rfl | rfl | rfl | rfl | rfl
  · exact ⟨'-', by decide, rfl, by decide, by decide, by decide, by decide, by decide⟩
  · exact ⟨'+', by decide, rfl, by decide, by decide, by decide, by decide, by decide⟩
  · exact ⟨'-', by decide, rfl, by decide, by decide, by decide, by decide, by decide⟩
  · exact ⟨'*', by decide, rfl, by decide, by decide, by decide, by decide, by decide⟩
  · exact ⟨'/', by decide, rfl, by decide, by decide, by decide, by decide, by decide⟩
  · exact ⟨'^', by decide, rfl, by decide, by decide, by decide, by decide, by decide⟩

theorem toList_toString (value : Nat) : (toString value).toList = Nat.toDigits 10 value :=
  Nat.toList_repr

theorem toDigits_spec (value : Nat) : Nat.toDigits 10 value ≠ [] ∧
    ∀ c ∈ Nat.toDigits 10 value, c.isDigit = true :=
  ⟨Nat.toDigits_ne_nil, fun _ hc => Nat.isDigit_of_mem_toDigits (by omega) le_rfl hc⟩

/-- A lexeme that stands before a text at which it ends is a token. -/
theorem IsLexeme.lexeme? {l : Lexeme} (h : IsLexeme l) :
    ∃ first more, l.2.toList = first :: more ∧ Text.isBlank first = false ∧
      ∀ tail, Stops l.1 tail →
        Token.lexeme? standardAlphabet first (more ++ tail) = some (l.1, more.length) := by
  cases h with
  | number value =>
      obtain ⟨hne, hdigits⟩ := toDigits_spec value
      obtain ⟨first, more, hlist⟩ := List.exists_cons_of_ne_nil hne
      have hfirst := digit_spec (hdigits first (by simp [hlist]))
      refine ⟨first, more, (toList_toString value).trans hlist, hfirst.2.1, fun tail htail => ?_⟩
      have hlength := numberLength_digits hne (fun c hc => (digit_spec (hdigits c hc)).1)
        fun c hc => (htail c hc).1 rfl
      rw [hlist, List.cons_append] at hlength
      rw [Token.lexeme?, hlength]
      simp
  | name hname =>
      obtain ⟨first, more, hlist, hfirst, hmore⟩ := hname
      obtain ⟨hdigit, hpoint, hblank, -⟩ := letter_spec hfirst
      refine ⟨first, more, hlist, hblank, fun tail htail => ?_⟩
      rw [Token.lexeme?, numberLength_eq_zero hdigit hpoint, if_neg (by omega), if_pos hfirst,
        takeWhile_append_of_stop (List.all_eq_true.mp hmore) fun c hc => (htail c hc).2.1 rfl]
  | operator hoperator =>
      obtain ⟨c, hmark, hlist, hc, hletter, hopening, hclosing, hcomma⟩ := symbol_eq hoperator
      obtain ⟨hdigit, hpoint, -, -, hblank, -⟩ := mark_spec hmark
      refine ⟨c, [], hlist, hblank, fun tail htail => ?_⟩
      have hrest : ([] ++ tail).takeWhile standardAlphabet.isOperator = [] :=
        takeWhile_append_of_stop (by simp) fun c hc => (htail c hc).2.2 rfl
      rw [List.nil_append] at hrest ⊢
      simp only [Token.lexeme?, numberLength_eq_zero hdigit hpoint, lt_irrefl, if_false, hletter,
        Bool.false_eq_true, if_neg hopening, if_neg hclosing, if_neg hcomma, hc, if_true, hrest]
  | opening =>
      refine ⟨'(', [], rfl, by decide +kernel, fun tail _ => ?_⟩
      rw [Token.lexeme?, numberLength_eq_zero (by decide) (by decide)]
      rfl
  | closing =>
      refine ⟨')', [], rfl, by decide +kernel, fun tail _ => ?_⟩
      rw [Token.lexeme?, numberLength_eq_zero (by decide) (by decide)]
      rfl
  | comma =>
      refine ⟨',', [], rfl, by decide +kernel, fun tail _ => ?_⟩
      rw [Token.lexeme?, numberLength_eq_zero (by decide) (by decide)]
      rfl

/-- Two lexemes that stay apart when nothing is written between them. -/
def Apart (a b : Lexeme) : Prop :=
  (a.1 = .number ∨ a.1 = .name → b.1 ≠ .number ∧ b.1 ≠ .name) ∧
    (a.1 = .operators → b.1 ≠ .operators)

/-- Operators and brackets start with their marks. -/
theorem IsLexeme.mark {l : Lexeme} (h : IsLexeme l) (hnumber : l.1 ≠ .number)
    (hname : l.1 ≠ .name) : ∃ c ∈ marks, l.2.toList = [c] := by
  cases h with
  | number => exact absurd rfl hnumber
  | name => exact absurd rfl hname
  | operator hoperator =>
      obtain ⟨c, hmark, hlist, -⟩ := symbol_eq hoperator
      exact ⟨c, hmark, hlist⟩
  | opening => exact ⟨'(', by decide, rfl⟩
  | closing => exact ⟨')', by decide, rfl⟩
  | comma => exact ⟨',', by decide, rfl⟩

theorem stops_of_apart {a b : Lexeme} (h : Apart a b) (hb : IsLexeme b) (tail : List Char) :
    Stops a.1 (b.2.toList ++ tail) := by
  obtain ⟨hoperand, hoperator⟩ := h
  intro c hc
  refine ⟨fun hkind => ?_, fun hkind => ?_, fun hkind => ?_⟩
  · obtain ⟨hnumber, hname⟩ := hoperand (.inl hkind)
    obtain ⟨mark, hmark, hlist⟩ := hb.mark hnumber hname
    obtain rfl : mark = c := by simpa [hlist] using hc
    obtain ⟨hdigit, hpoint, hlower, hupper, -⟩ := mark_spec hmark
    exact ⟨hdigit, hpoint, hlower, hupper⟩
  · obtain ⟨hnumber, hname⟩ := hoperand (.inr hkind)
    obtain ⟨mark, hmark, hlist⟩ := hb.mark hnumber hname
    obtain rfl : mark = c := by simpa [hlist] using hc
    exact (mark_spec hmark).2.2.2.2.2
  · cases hb with
    | number value =>
        obtain ⟨hne, hdigits⟩ := toDigits_spec value
        obtain ⟨first, more, hlist⟩ := List.exists_cons_of_ne_nil hne
        obtain rfl : first = c := by simpa [toList_toString, hlist] using hc
        exact (digit_spec (hdigits first (by simp [hlist]))).2.2
    | name hname =>
        obtain ⟨first, more, hlist, hfirst, -⟩ := hname
        obtain rfl : first = c := by simpa [hlist] using hc
        exact (letter_spec hfirst).2.2.2
    | operator => exact absurd rfl (hoperator hkind)
    | opening | closing | comma =>
        all_goals
          obtain rfl := Option.some.inj hc
          decide

/-! ## Scanning -/

/-- The characters of a lexeme in a text; a blank follows a comma. -/
def spelled (l : Lexeme) : List Char :=
  if l.1 = .comma then l.2.toList ++ [' '] else l.2.toList

theorem exists_spelled_eq (l : Lexeme) : ∃ after, spelled l = l.2.toList ++ after := by
  unfold spelled
  split_ifs
  · exact ⟨_, rfl⟩
  · exact ⟨[], (List.append_nil _).symm⟩

theorem scan_token {l : Lexeme} (h : IsLexeme l) (position : Nat) (spaced : Bool)
    (htail : Stops l.1 tail) :
    scan standardAlphabet position spaced (l.2.toList ++ tail) = do
      let rest ← scan standardAlphabet (position + l.2.toList.length) false tail
      return ⟨l.1, l.2, position, spaced⟩ :: rest := by
  obtain ⟨first, more, hlist, hblank, hlexeme⟩ := h.lexeme?
  have htext : String.ofList (first :: more) = l.2 := by rw [← hlist, String.ofList_toList]
  rw [hlist, List.cons_append, scan]
  simp only [hblank, Bool.false_eq_true, if_false, hlexeme tail htail, List.take_left,
    List.drop_left, htext, List.length_cons, add_assoc]

/-- A text that spells lexemes is split into them. -/
theorem exists_scan {lexemes : List Lexeme} (h : ∀ l ∈ lexemes, IsLexeme l)
    (hchain : lexemes.IsChain Apart) (position : Nat) (spaced : Bool) :
    ∃ tokens, scan standardAlphabet position spaced (lexemes.flatMap spelled) = .ok tokens ∧
      tokens.map lexeme = lexemes := by
  induction lexemes generalizing position spaced with
  | nil => exact ⟨[], by rw [List.flatMap_nil, scan], rfl⟩
  | cons l others ih =>
      obtain ⟨hl, hothers⟩ := List.forall_mem_cons.mp h
      have htail : Stops l.1 (others.flatMap spelled) := by
        cases others with
        | nil => simp [Stops]
        | cons next rest =>
            obtain ⟨after, hafter⟩ := exists_spelled_eq next
            rw [List.flatMap_cons, hafter, List.append_assoc]
            exact stops_of_apart (List.isChain_cons_cons.mp hchain).1
              (hothers next List.mem_cons_self) _
      by_cases hcomma : l.1 = .comma
      · obtain ⟨tokens, hscan, htokens⟩ := ih hothers hchain.tail
          (position + l.2.toList.length + 1) true
        have hblank : scan standardAlphabet (position + l.2.toList.length) false
            (' ' :: others.flatMap spelled) = .ok tokens := by
          rw [scan, if_pos (by decide +kernel), hscan]
        have hstops : Stops l.1 (' ' :: others.flatMap spelled) := by simp [Stops, hcomma]
        refine ⟨⟨l.1, l.2, position, spaced⟩ :: tokens, ?_, by simp [lexeme, htokens]⟩
        rw [List.flatMap_cons, spelled, if_pos hcomma, List.append_assoc, List.singleton_append,
          scan_token hl position spaced hstops, hblank]
        rfl
      · obtain ⟨tokens, hscan, htokens⟩ := ih hothers hchain.tail
          (position + l.2.toList.length) false
        refine ⟨⟨l.1, l.2, position, spaced⟩ :: tokens, ?_, by simp [lexeme, htokens]⟩
        rw [List.flatMap_cons, spelled, if_neg hcomma, scan_token hl position spaced htail, hscan]
        rfl

end Token

end ExactAlgebra
