import ExactAlgebra.Proofs.Reading.Seams

/-!
# Tokens and blanks

Tokens are pieces of a text, one after the other, and the blanks are what stands outside of them.
A token is read as it is from its own text before a blank, so the texts of the tokens of a text,
with blanks between them, have the same tokens.
-/

namespace ExactAlgebra

open Postfix

/-- Sets without overlapping ranges have no character in common. -/
theorem CharRanges.holds_of_apart {a b : CharRanges}
    (hapart : ∀ x ∈ a.toList, ∀ y ∈ b.toList, x.2 < y.1 ∨ y.2 < x.1) {c : Char}
    (hc : a.holds c = true) : b.holds c = false := by
  rw [holds, ← Array.any_toList, List.any_eq_true] at hc
  rw [holds, ← Array.any_toList, List.any_eq_false]
  rcases hc with ⟨x, hx, hin⟩
  intro y hy
  have := hapart x hx y hy
  simp only [Bool.and_eq_true, decide_eq_true_eq] at hin ⊢
  omega

namespace Token

variable {first : Char} {rest tail text front mantissa exponent : List Char} {kind : TokenKind}
  {count position : Nat} {spaced : Bool} {token : Token} {tokens : List Token}

/-! ## Numbers before a blank -/

theorem digitsLength_of_digits (h : ∀ c ∈ text, Text.isDecimalDigit c = true) :
    digitsLength text = text.length := by
  rw [digitsLength, List.takeWhile_eq_self_iff.mpr h]

theorem exponentLength_of_isExponent (h : IsExponent exponent) :
    exponentLength exponent = exponent.length := by
  cases h with
  | none => rfl
  | @plain mark digits hmark hne hdigits =>
      rcases List.exists_cons_of_ne_nil hne with ⟨first, more, rfl⟩
      have hfirst := hdigits first List.mem_cons_self
      have hsign : ¬ (first = '-' ∨ first = '+') := by
        rintro (rfl | rfl)
        all_goals
          rw [Text.isDecimalDigit_mark (by decide)] at hfirst
          cases hfirst
      simp [exponentLength, hmark, hsign, digitsLength_of_digits hdigits]
  | @signed mark sign digits hmark hsign hne hdigits =>
      simp [exponentLength, hmark, hsign, digitsLength_of_digits hdigits, hne]

theorem IsMantissa.ne_nil (h : IsMantissa mantissa) : mantissa ≠ [] := by
  cases h with
  | whole hne _ => exact hne
  | point => simp

/-- A mantissa ends where neither a digit nor a point follows. -/
theorem mantissaLength_of_isMantissa (h : IsMantissa mantissa)
    (htail : ∀ c ∈ tail.head?, Text.isDecimalDigit c = false ∧ c ≠ '.') :
    mantissaLength (mantissa ++ tail) = mantissa.length := by
  have halone : mantissaLength mantissa = mantissa.length := by
    cases h with
    | whole hne hdigits =>
        simp [mantissaLength, digitsLength_of_digits hdigits]
    | @point digits fraction hne hdigits hfraction =>
        have hpoint : Text.isDecimalDigit '.' = false := Text.isDecimalDigit_mark (by decide)
        have hlength : digitsLength (digits ++ '.' :: fraction) = digits.length := by
          rw [digitsLength_append hpoint, digitsLength_of_digits hdigits]
        simp only [mantissaLength, hlength, List.drop_left, digitsLength_of_digits hfraction,
          List.length_eq_zero_iff, if_neg hne, List.length_append, List.length_cons]
        omega
  cases tail with
  | nil => rw [List.append_nil, halone]
  | cons c more =>
      rcases htail c rfl with ⟨hdigit, hpoint⟩
      rw [mantissaLength_append hdigit hpoint, halone]

/-- A number is as long as its parts. -/
theorem numberLength_of_parts (hmantissa : IsMantissa mantissa) (hexponent : IsExponent exponent) :
    numberLength (mantissa ++ exponent) = (mantissa ++ exponent).length := by
  have hhead : ∀ c ∈ exponent.head?, Text.isDecimalDigit c = false ∧ c ≠ '.' := by
    intro c hc
    rcases Numeral.head?_exponent hexponent c hc with rfl | rfl
    · exact ⟨Text.isDecimalDigit_mark (by decide), by decide⟩
    · exact ⟨Text.isDecimalDigit_mark (by decide), by decide⟩
  have hlength := mantissaLength_of_isMantissa hmantissa hhead
  have hne : mantissa.length ≠ 0 := List.length_eq_zero_iff.not.mpr hmantissa.ne_nil
  simp only [numberLength, hlength, if_neg hne, List.drop_left,
    exponentLength_of_isExponent hexponent, List.length_append]

/-! ## Texts of tokens -/

/-- The texts of tokens in the standard notation. -/
inductive IsTokenText : TokenKind → List Char → Prop
  | number {mantissa exponent : List Char} (hmantissa : IsMantissa mantissa)
      (hexponent : IsExponent exponent) : IsTokenText .number (mantissa ++ exponent)
  | name {first : Char} {more : List Char} (hfirst : isLetter standardAlphabet first = true)
      (hmore : ∀ c ∈ more, continuesName standardAlphabet c = true) :
      IsTokenText .name (first :: more)
  | operators {first : Char} {more : List Char} (hfirst : standardAlphabet.isOperator first = true)
      (hmore : ∀ c ∈ more, standardAlphabet.isOperator c = true) :
      IsTokenText .operators (first :: more)
  | opening : IsTokenText .opening ['(']
  | closing : IsTokenText .closing [')']
  | comma : IsTokenText .comma [',']

theorem IsTokenText.ne_nil (h : IsTokenText kind text) : text ≠ [] := by
  cases h with
  | number hmantissa _ => exact List.append_ne_nil_of_left_ne_nil hmantissa.ne_nil _
  | name | operators | opening | closing | comma => exact List.cons_ne_nil _ _

theorem take_length_takeWhile (p : Char → Bool) (text : List Char) :
    text.take (text.takeWhile p).length = text.takeWhile p :=
  (List.prefix_iff_eq_take.mp (List.takeWhile_prefix p)).symm

/-- What is found at the front of a text is the text of a token. -/
theorem isTokenText_of_lexeme? (h : lexeme? standardAlphabet first rest = some (kind, count)) :
    IsTokenText kind (first :: rest.take count) := by
  unfold lexeme? at h
  dsimp only at h
  split_ifs at h with hnumber hletter hopening hclosing hcomma hoperator <;> cases h
  · rcases exists_number hnumber with
      ⟨mantissa, exponent, more, htext, hlength, hmantissa, hexponent⟩
    rw [← List.take_succ_cons, Nat.sub_add_cancel hnumber, hlength, htext, List.take_left]
    exact .number hmantissa hexponent
  · rw [take_length_takeWhile]
    exact .name hletter fun c hc => List.mem_takeWhile_imp hc
  · rw [hopening]
    exact .opening
  · rw [hclosing]
    exact .closing
  · rw [hcomma]
    exact .comma
  · rw [take_length_takeWhile]
    exact .operators hoperator fun c hc => List.mem_takeWhile_imp hc

/-- Operators start no other token and are not blank. -/
theorem operator_spec {c : Char} (h : standardAlphabet.isOperator c = true) :
    Text.isDecimalDigit c = false ∧ c ≠ '.' ∧ Text.isBlank c = false ∧
      isLetter standardAlphabet c = false ∧ c ≠ '(' ∧ c ≠ ')' ∧ c ≠ ',' := by
  have hall : OperatorTable.standard.operators.all (fun operator => operator.symbol.toList.all
      fun c => decide (Text.isDecimalDigit c = false ∧ c ≠ '.' ∧ Text.isBlank c = false ∧
        isLetter standardAlphabet c = false ∧ c ≠ '(' ∧ c ≠ ')' ∧ c ≠ ',')) = true := by
    decide +kernel
  rcases List.any_eq_true.mp h with ⟨operator, hoperator, hc⟩
  have hsymbol := List.all_eq_true.mp hall operator hoperator
  exact of_decide_eq_true (List.all_eq_true.mp hsymbol c (List.contains_iff_mem.mp hc))

theorem isBlank_of_continuesName {c : Char} (h : continuesName standardAlphabet c = true) :
    Text.isBlank c = false := by
  rw [continuesName, Bool.or_eq_true, Text.isDigitLike, Bool.or_eq_true] at h
  rcases h with hletter | hdigit | hspecial
  · exact (letter_spec hletter).2.2.1
  · exact Text.isBlank_of_isDecimalDigit hdigit
  · exact CharRanges.holds_of_apart (by decide +kernel) hspecial

/-- No character of a token is blank. -/
theorem IsTokenText.not_blank (h : IsTokenText kind text) :
    ∀ c ∈ text, Text.isBlank c = false := by
  cases h with
  | number hmantissa hexponent =>
      intro c hc
      rcases Numeral.digit_or_mark hmantissa hexponent c hc with hdigit | hmark
      · exact Text.isBlank_of_isDecimalDigit hdigit
      · exact Text.isBlank_mark hmark
  | name hfirst hmore =>
      intro c hc
      rcases List.mem_cons.mp hc with rfl | hc
      · exact (letter_spec hfirst).2.2.1
      · exact isBlank_of_continuesName (hmore c hc)
  | operators hfirst hmore =>
      intro c hc
      rcases List.mem_cons.mp hc with rfl | hc
      · exact (operator_spec hfirst).2.2.1
      · exact (operator_spec (hmore c hc)).2.2.1
  | opening | closing | comma =>
      intro c hc
      rw [List.mem_singleton.mp hc]
      exact (mark_spec (by decide)).2.2.2.2.1

/-- A blank ends all tokens. -/
theorem space_spec : Text.isDecimalDigit ' ' = false ∧ Text.isBlank ' ' = true ∧
    continuesName standardAlphabet ' ' = false ∧ standardAlphabet.isOperator ' ' = false := by
  decide +kernel

/-- The text of a token is read as the token at the end of a text and before a blank. -/
theorem IsTokenText.lexeme? {more : List Char} (h : IsTokenText kind (first :: more))
    (htail : ∀ c ∈ tail.head?, c = ' ') :
    Token.lexeme? standardAlphabet first (more ++ tail) = some (kind, more.length) := by
  obtain ⟨hdigit, -, hname, hoperator⟩ := space_spec
  generalize htext : first :: more = text at h
  cases h with
  | number hmantissa hexponent =>
      have hlength : numberLength (first :: (more ++ tail)) = more.length + 1 := by
        have halone := numberLength_of_parts hmantissa hexponent
        rw [← htext] at halone
        cases tail with
        | nil => simpa using halone
        | cons c after =>
            obtain rfl := htail c rfl
            rw [← List.cons_append, numberLength_append hdigit (by decide) (by decide) _ _
              (.inl (by decide)), halone, List.length_cons]
      simp [Token.lexeme?, hlength]
  | name hfirst hmore =>
      obtain ⟨rfl, rfl⟩ := List.cons.inj htext
      obtain ⟨hdigit', hpoint, -, -⟩ := letter_spec hfirst
      have hstop : ∀ c ∈ tail.head?, continuesName standardAlphabet c = false := by
        intro c hc
        rw [htail c hc]
        exact hname
      simp [Token.lexeme?, numberLength_eq_zero hdigit' hpoint, hfirst,
        takeWhile_append_of_stop hmore hstop]
  | operators hfirst hmore =>
      obtain ⟨rfl, rfl⟩ := List.cons.inj htext
      obtain ⟨hdigit', hpoint, -, hletter, hopening, hclosing, hcomma⟩ := operator_spec hfirst
      have hstop : ∀ c ∈ tail.head?, standardAlphabet.isOperator c = false := by
        intro c hc
        rw [htail c hc]
        exact hoperator
      simp [Token.lexeme?, numberLength_eq_zero hdigit' hpoint, hletter, hopening, hclosing,
        hcomma, hfirst, takeWhile_append_of_stop hmore hstop]
  | opening | closing | comma =>
      all_goals
        obtain ⟨rfl, rfl⟩ := List.cons.inj htext
        rw [Token.lexeme?, numberLength_eq_zero (by decide) (by decide)]
        rfl

/-! ## Tokens in a text -/

/-- True if a blank stands right before a position. -/
def BlankBefore (text : List Char) (position : Nat) : Prop :=
  ∃ c ∈ (text.take position).getLast?, Text.isBlank c = true

/-- The tokens of a text from a position on: pieces of the text, one after the other, and blanks
outside of them. -/
structure IsSplit (start : Nat) (text : List Char) (tokens : List Token) : Prop where
  start_le : ∀ token ∈ tokens, start ≤ token.position
  slice : ∀ token ∈ tokens, token.text ≠ "" ∧
    (text.drop token.position).take token.text.length = token.text.toList
  ordered : tokens.Pairwise fun a b => a.position + a.text.length ≤ b.position
  blank_iff : ∀ i c, start ≤ i → text[i]? = some c → (Text.isBlank c = true ↔
    ∀ token ∈ tokens, ¬ (token.position ≤ i ∧ i < token.position + token.text.length))
  spaced_iff : ∀ token ∈ tokens, token.spaced = true ↔ BlankBefore text token.position

/-- There is nothing after the end of a text. -/
theorem isSplit_nil : IsSplit text.length text [] where
  start_le := nofun
  slice := nofun
  ordered := .nil
  blank_iff i c hle hc := by
    rw [List.getElem?_eq_none hle] at hc
    cases hc
  spaced_iff := nofun

/-- A blank before all tokens. -/
theorem IsSplit.blank {start : Nat} {c : Char} (h : IsSplit (start + 1) text tokens)
    (hc : text[start]? = some c) (hblank : Text.isBlank c = true) : IsSplit start text tokens where
  start_le token htoken := Nat.le_of_succ_le (h.start_le token htoken)
  slice := h.slice
  ordered := h.ordered
  blank_iff i d hle hd := by
    rcases Nat.eq_or_lt_of_le hle with rfl | hlt
    · obtain rfl : c = d := Option.some.inj (hc.symm.trans hd)
      apply iff_of_true hblank
      intro token htoken hcover
      have := h.start_le token htoken
      omega
    · exact h.blank_iff i d hlt hd
  spaced_iff := h.spaced_iff

/-- A token before all others. -/
theorem IsSplit.cons (h : IsSplit (token.position + token.text.length) text tokens)
    (hne : token.text ≠ "")
    (hslice : (text.drop token.position).take token.text.length = token.text.toList)
    (hblank : ∀ c ∈ token.text.toList, Text.isBlank c = false)
    (hspaced : token.spaced = true ↔ BlankBefore text token.position) :
    IsSplit token.position text (token :: tokens) where
  start_le := List.forall_mem_cons.mpr
    ⟨le_rfl, fun other hother => (Nat.le_add_right _ _).trans (h.start_le other hother)⟩
  slice := List.forall_mem_cons.mpr ⟨⟨hne, hslice⟩, h.slice⟩
  ordered := List.pairwise_cons.mpr ⟨h.start_le, h.ordered⟩
  blank_iff i c hle hc := by
    rw [List.forall_mem_cons]
    by_cases hlt : i < token.position + token.text.length
    · have hmem : c ∈ token.text.toList := by
        rw [← hslice, List.mem_iff_getElem?]
        refine ⟨i - token.position, ?_⟩
        rw [List.getElem?_take_of_lt (by omega), List.getElem?_drop, Nat.add_sub_cancel' hle, hc]
      apply iff_of_false
      · rw [hblank c hmem]
        exact Bool.false_ne_true
      · intro hall
        exact hall.1 ⟨hle, hlt⟩
    · rw [h.blank_iff i c (by omega) hc, and_iff_right]
      intro hcover
      exact hlt hcover.2
  spaced_iff := List.forall_mem_cons.mpr ⟨hspaced, h.spaced_iff⟩

theorem blankBefore_append (front text : List Char) :
    BlankBefore (front ++ text) front.length ↔ ∃ c ∈ front.getLast?, Text.isBlank c = true := by
  rw [BlankBefore, List.take_left]

/-- Scanning splits a text, when what stands in front of it has been read. -/
theorem isSplit_scan (h : scan standardAlphabet position spaced text = .ok tokens)
    (hposition : front.length = position)
    (hspaced : spaced = true ↔ BlankBefore (front ++ text) position) :
    IsSplit position (front ++ text) tokens := by
  -- What has been read moves to `front`, so that the places always refer to the whole text.
  induction position, spaced, text using scan.induct standardAlphabet
    generalizing front tokens with
  | case1 position spaced =>
      rw [scan] at h
      cases h
      subst hposition
      rw [List.append_nil]
      exact isSplit_nil
  | case2 position spaced first rest hblank ih =>
      rw [scan, if_pos hblank] at h
      subst hposition
      have hfront : front ++ first :: rest = (front ++ [first]) ++ rest := by simp
      have hsplit : IsSplit (front.length + 1) ((front ++ [first]) ++ rest) tokens := by
        apply ih h (by simp)
        have hbefore := blankBefore_append (front ++ [first]) rest
        rw [List.length_append, List.length_singleton] at hbefore
        rw [hbefore]
        apply iff_of_true rfl
        exact ⟨first, by simp, hblank⟩
      rw [← hfront] at hsplit
      exact hsplit.blank (by simp) hblank
  | case3 position spaced first rest hblank hlexeme =>
      rw [scan, if_neg hblank, hlexeme] at h
      cases h
  | case4 position spaced first rest hblank kind count hlexeme ih =>
      rw [scan, if_neg hblank, hlexeme] at h
      obtain ⟨others, hothers, h⟩ := exists_of_bind h
      cases h
      subst hposition
      have hnotblank := (isTokenText_of_lexeme? hlexeme).not_blank
      have hcount := List.length_take_of_le (lexeme?_le hlexeme)
      have hsize : (String.ofList (first :: rest.take count)).length = count + 1 := by
        rw [String.length_ofList, List.length_cons, hcount]
      have hfront : front ++ first :: rest =
          (front ++ first :: rest.take count) ++ rest.drop count := by simp
      have hsplit : IsSplit (front.length + count + 1)
          ((front ++ first :: rest.take count) ++ rest.drop count) others := by
        apply ih hothers
        · rw [List.length_append, List.length_cons, hcount, Nat.add_assoc]
        · have hbefore := blankBefore_append (front ++ first :: rest.take count) (rest.drop count)
          rw [List.length_append, List.length_cons, hcount, ← Nat.add_assoc] at hbefore
          rw [hbefore]
          apply iff_of_false Bool.false_ne_true
          rintro ⟨c, hc, hlast⟩
          rw [List.getLast?_append_of_ne_nil _ (List.cons_ne_nil _ _)] at hc
          rw [hnotblank c (List.mem_of_mem_getLast? hc)] at hlast
          cases hlast
      rw [← hfront] at hsplit
      refine @IsSplit.cons _ ⟨kind, String.ofList (first :: rest.take count), front.length, spaced⟩
        _ ?_ ?_ ?_ ?_ hspaced
      · rwa [hsize, ← Nat.add_assoc]
      · simp
      · rw [hsize, List.drop_left, List.take_succ_cons, String.toList_ofList]
      · rwa [String.toList_ofList]

/-! ## Tokens between blanks -/

theorem isTokenText_of_mem_scan (h : scan standardAlphabet position spaced text = .ok tokens) :
    ∀ token ∈ tokens, IsTokenText token.kind token.text.toList := by
  induction position, spaced, text using scan.induct standardAlphabet generalizing tokens with
  | case1 position spaced =>
      rw [scan] at h
      cases h
      simp
  | case2 position spaced first rest hblank ih =>
      rw [scan, if_pos hblank] at h
      exact ih h
  | case3 position spaced first rest hblank hlexeme =>
      rw [scan, if_neg hblank, hlexeme] at h
      cases h
  | case4 position spaced first rest hblank kind count hlexeme ih =>
      rw [scan, if_neg hblank, hlexeme] at h
      obtain ⟨others, hothers, h⟩ := exists_of_bind h
      cases h
      refine List.forall_mem_cons.mpr ⟨?_, ih hothers⟩
      rw [String.toList_ofList]
      exact isTokenText_of_lexeme? hlexeme

/-- Scanning a token before a blank or at the end. -/
theorem scan_of_isTokenText (h : IsTokenText token.kind token.text.toList)
    (htail : ∀ c ∈ tail.head?, c = ' ') {others : List Token}
    (hothers : scan standardAlphabet (position + token.text.toList.length) false tail =
      .ok others) :
    scan standardAlphabet position spaced (token.text.toList ++ tail) =
      .ok (⟨token.kind, token.text, position, spaced⟩ :: others) := by
  rcases List.exists_cons_of_ne_nil h.ne_nil with ⟨first, more, htext⟩
  have hofList : String.ofList (first :: more) = token.text := by
    rw [← htext, String.ofList_toList]
  rw [htext] at h
  rw [htext, List.length_cons, ← Nat.add_assoc] at hothers
  rw [htext, List.cons_append, ← hofList]
  exact scan_of_lexeme? (h.not_blank first List.mem_cons_self) (h.lexeme? htail) hothers

/-- The texts of tokens with blanks between them have these tokens. -/
theorem exists_scan_joined (h : ∀ token ∈ tokens, IsTokenText token.kind token.text.toList)
    (position : Nat) (spaced : Bool) :
    ∃ again, scan standardAlphabet position spaced
        (" ".intercalate (tokens.map Token.text)).toList = .ok again ∧
      again.map lexeme = tokens.map lexeme := by
  induction tokens generalizing position spaced with
  | nil =>
      refine ⟨[], ?_, rfl⟩
      rw [List.map_nil, String.intercalate_nil, String.toList_empty, scan]
  | cons token more ih =>
      rcases List.forall_mem_cons.mp h with ⟨htoken, hmore⟩
      -- No blank follows the last token, so it ends with the text.
      cases more with
      | nil =>
          refine ⟨[⟨token.kind, token.text, position, spaced⟩], ?_, rfl⟩
          have hend : ∀ c ∈ ([] : List Char).head?, c = ' ' := by simp
          rw [List.map_cons, List.map_nil, String.intercalate_singleton, ← List.append_nil
            token.text.toList]
          apply scan_of_isTokenText htoken hend
          rw [scan]
      | cons second others =>
          rcases ih hmore (position + token.text.toList.length + 1) true with
            ⟨again, hagain, hlexemes⟩
          refine ⟨⟨token.kind, token.text, position, spaced⟩ :: again, ?_, ?_⟩
          · have hblank : ∀ rest : List Char, ∀ c ∈ (' ' :: rest).head?, c = ' ' := by simp
            have hjoined : (" ".intercalate ((token :: second :: others).map Token.text)).toList =
                token.text.toList ++
                  ' ' :: (" ".intercalate ((second :: others).map Token.text)).toList := by
              simp [String.intercalate_cons_cons]
            rw [hjoined]
            apply scan_of_isTokenText htoken (hblank _)
            rw [scan, if_pos space_spec.2.1]
            exact hagain
          · rw [List.map_cons, hlexemes]
            rfl

end Token

/-! ## Main result -/

namespace Environment

open Token

theorem alphabet_standard {env : Environment} (hletters : env.settings.extraLetters = []) :
    env.alphabet .standard = standardAlphabet := by
  rw [standardAlphabet, alphabet, alphabet, hletters]
  rfl

/-- A text without an invalid character has tokens.  They are its parts outside of the blanks, and
their texts, joined by single blanks, have the same kinds and texts again. -/
theorem exists_tokens {env : Environment} (hletters : env.settings.extraLetters = [])
    {text : String} (hvalid : ∀ c position,
      env.tokens .standard text ≠ .error (.parse (.invalidCharacter c) position)) :
    ∃ tokens, env.tokens .standard text = .ok tokens ∧ IsSplit 0 text.toList tokens ∧
      ∃ again, env.tokens .standard (" ".intercalate (tokens.map Token.text)) = .ok again ∧
        again.map lexeme = tokens.map lexeme := by
  simp only [Environment.tokens, ofText, alphabet_standard hletters] at hvalid ⊢
  cases hscan : scan standardAlphabet 0 false text.toList with
  | error fault =>
      rcases exists_invalid_of_error hscan with ⟨front, c, rest, -, -, -, rfl⟩
      exact absurd hscan (hvalid c _)
  | ok tokens =>
      have hstart : false = true ↔ BlankBefore ([] ++ text.toList) 0 := by
        simp [BlankBefore]
      have hsplit : IsSplit 0 ([] ++ text.toList) tokens := isSplit_scan hscan rfl hstart
      exact ⟨tokens, rfl, hsplit, exists_scan_joined (isTokenText_of_mem_scan hscan) 0 false⟩

/-- Letters after a number start a name, and a number may start with a point. -/
theorem exists_tokens_superscript :
    (∀ c position, standard.tokens .standard "2e x²!!+.5" ≠
      .error (.parse (.invalidCharacter c) position)) ∧
    ∃ tokens, standard.tokens .standard "2e x²!!+.5" = .ok tokens ∧
      IsSplit 0 "2e x²!!+.5".toList tokens ∧
      ∃ again, standard.tokens .standard (" ".intercalate (tokens.map Token.text)) = .ok again ∧
        again.map lexeme = tokens.map lexeme := by
  have hvalid : ∀ c position, standard.tokens .standard "2e x²!!+.5" ≠
      .error (.parse (.invalidCharacter c) position) := by
    have hok : (standard.tokens .standard "2e x²!!+.5").isOk = true := by decide +kernel
    intro c position herror
    rw [herror] at hok
    cases hok
  exact ⟨hvalid, exists_tokens rfl hvalid⟩

end Environment

end ExactAlgebra
