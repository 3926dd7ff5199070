import ExactAlgebra.Proofs.Reading.Replay

/-!
# Tokens next to brackets

A bracket is a token by itself, and no token goes on with one.  So the tokens of a text do not
change when a bracket follows it, nor when a bracket takes the place of a name in what follows.
-/

namespace ExactAlgebra.Token

variable {first c : Char} {front more text : List Char} {kind : TokenKind} {count : Nat}

/-! ## Lengths of tokens -/

theorem digitsLength_append (hc : Text.isDecimalDigit c = false) (front more : List Char) :
    digitsLength (front ++ c :: more) = digitsLength front := by
  have hstop : (c :: more).takeWhile Text.isDecimalDigit = [] := by simp [hc]
  rw [digitsLength, digitsLength, List.takeWhile_append, hstop, List.append_nil]
  split_ifs with hall
  · rw [List.IsPrefix.eq_of_length (List.takeWhile_prefix _) hall]
  · rfl

theorem digitsLength_le (text : List Char) : digitsLength text ≤ text.length :=
  (List.takeWhile_prefix _).length_le

theorem mantissaLength_le (text : List Char) : mantissaLength text ≤ text.length := by
  by_cases h : mantissaLength text = 0
  · omega
  · obtain ⟨mantissa, rest, htext, hlength, -⟩ := exists_mantissa h
    rw [hlength, htext, List.length_append]
    omega

theorem mantissaLength_append (hc : Text.isDecimalDigit c = false) (hpoint : c ≠ '.')
    (front more : List Char) : mantissaLength (front ++ c :: more) = mantissaLength front := by
  have hdrop : (front ++ c :: more).drop (digitsLength front) =
      front.drop (digitsLength front) ++ c :: more :=
    List.drop_append_of_le_length (digitsLength_le front)
  simp only [mantissaLength, digitsLength_append hc, hdrop]
  cases front.drop (digitsLength front) with
  | nil =>
      rw [List.nil_append]
      split
      next heq => exact absurd (List.cons.inj heq).1 hpoint
      next => rfl
  | cons d rest =>
      by_cases hd : d = '.'
      · subst hd
        simp only [List.cons_append, digitsLength_append hc]
      · simp only [List.cons_append]
        split
        next heq => exact absurd (List.cons.inj heq).1 hd
        next =>
          split
          next heq => exact absurd (List.cons.inj heq).1 hd
          next => rfl

/-- An exponent ends before a character that is none of its own, if it does not start there. -/
theorem exponentLength_append (hc : Text.isDecimalDigit c = false) (hsign : c ≠ '-' ∧ c ≠ '+')
    (hstart : front = [] → exponentLength (c :: more) = 0) :
    exponentLength (front ++ c :: more) = exponentLength front := by
  match front with
  | [] => exact hstart rfl
  | [mark] =>
      have hdigits : digitsLength (c :: more) = 0 := by simp [digitsLength, hc]
      simp [exponentLength, hsign.1, hsign.2, hdigits]
  | mark :: sign :: digits =>
      have hdigits : digitsLength (sign :: (digits ++ c :: more)) = digitsLength (sign :: digits) :=
        digitsLength_append hc (sign :: digits) more
      simp only [List.cons_append, exponentLength, digitsLength_append hc, hdigits]

/-- A number that ends in a text does not depend on what comes after a character that is none
of its own. -/
theorem numberLength_append (hc : Text.isDecimalDigit c = false) (hpoint : c ≠ '.')
    (hsign : c ≠ '-' ∧ c ≠ '+') (front more : List Char)
    (h : (c ≠ 'e' ∧ c ≠ 'E') ∨ numberLength (front ++ c :: more) ≤ front.length) :
    numberLength (front ++ c :: more) = numberLength front := by
  have hmantissa := mantissaLength_append hc hpoint front more
  have hle := mantissaLength_le front
  have hdrop : (front ++ c :: more).drop (mantissaLength front) =
      front.drop (mantissaLength front) ++ c :: more := List.drop_append_of_le_length hle
  simp only [numberLength, hmantissa, hdrop] at h ⊢
  split_ifs with hzero
  · rfl
  · rw [if_neg hzero] at h
    rw [exponentLength_append hc hsign fun hnil => ?_]
    rcases h with ⟨hlower, hupper⟩ | hlength
    · simp [exponentLength, hlower, hupper]
    · have hfull := List.drop_eq_nil_iff.mp hnil
      rw [hnil, List.nil_append] at hlength
      omega

/-! ## Lexemes -/

/-- The opening and the closing bracket. -/
def brackets : List Char := ['(', ')']

theorem bracket_spec (hc : c ∈ brackets) :
    Text.isDecimalDigit c = false ∧ c ≠ '.' ∧ (c ≠ '-' ∧ c ≠ '+') ∧ (c ≠ 'e' ∧ c ≠ 'E') ∧
      Text.isBlank c = false ∧ continuesName standardAlphabet c = false ∧
      standardAlphabet.isOperator c = false := by
  simp only [brackets, List.mem_cons, List.not_mem_nil, or_false] at hc
  rcases hc with rfl | rfl <;> decide +kernel

theorem length_takeWhile_append {p : Char → Bool} (hc : p c = false) (front more : List Char) :
    ((front ++ c :: more).takeWhile p).length = (front.takeWhile p).length := by
  have hstop : (c :: more).takeWhile p = [] := by simp [hc]
  rw [List.takeWhile_append, hstop, List.append_nil]
  split_ifs with hall
  · exact hall.symm
  · rfl

/-- No token goes on with a bracket. -/
theorem lexeme?_append_bracket (hc : c ∈ brackets) (first : Char) (front more : List Char) :
    lexeme? standardAlphabet first (front ++ c :: more) =
      lexeme? standardAlphabet first front := by
  obtain ⟨hdigit, hpoint, hsign, hexponent, -, hname, hoperator⟩ := bracket_spec hc
  have hnumber : numberLength (first :: (front ++ c :: more)) = numberLength (first :: front) :=
    numberLength_append hdigit hpoint hsign (first :: front) more (.inl hexponent)
  simp only [lexeme?, hnumber, length_takeWhile_append hname, length_takeWhile_append hoperator]

/-- A token that ends before a letter does not depend on what comes after. -/
theorem lexeme?_of_append_letter (hc : isLetter standardAlphabet c = true)
    (h : lexeme? standardAlphabet first (front ++ c :: more) = some (kind, count))
    (hcount : count ≤ front.length) :
    lexeme? standardAlphabet first front = some (kind, count) := by
  obtain ⟨hdigit, hpoint, -, hoperator⟩ := letter_spec hc
  have hsign : c ≠ '-' ∧ c ≠ '+' := by
    constructor <;> rintro rfl <;> exact absurd hc (by decide)
  have hname : continuesName standardAlphabet c = true := by simp [continuesName, hc]
  have hnumber (hle : numberLength (first :: (front ++ c :: more)) ≤ front.length + 1) :
      numberLength (first :: (front ++ c :: more)) = numberLength (first :: front) :=
    numberLength_append hdigit hpoint hsign (first :: front) more (.inr hle)
  by_cases hpos : 0 < numberLength (first :: (front ++ c :: more))
  · obtain ⟨rfl, rfl⟩ : TokenKind.number = kind ∧
        numberLength (first :: (front ++ c :: more)) - 1 = count := by
      simpa [lexeme?, hpos] using h
    have heq := hnumber (by omega)
    simp only [lexeme?, ← heq, hpos, if_true]
  · have heq := hnumber (by omega)
    simp only [lexeme?, ← heq, hpos, if_false, length_takeWhile_append hoperator] at h ⊢
    split_ifs at h ⊢ with hletter
    · -- the name ends before the letter, so it is a name in front of it as well
      obtain ⟨rfl, hlength⟩ : TokenKind.name = kind ∧
          ((front ++ c :: more).takeWhile (continuesName standardAlphabet)).length = count := by
        simpa using h
      rw [List.takeWhile_append] at hlength
      split_ifs at hlength with hall
      · rw [List.length_append, List.takeWhile_cons, if_pos hname, List.length_cons] at hlength
        omega
      · rw [hlength]
    all_goals exact h

/-! ## Scanning -/

/-- A token without its place. -/
def unplaced (token : Token) : Token := { token with position := 0 }

variable {position : Nat} {spaced : Bool} {tokens others : List Token}

theorem le_position_of_mem_scan {alphabet : Alphabet}
    (h : scan alphabet position spaced text = .ok tokens) :
    ∀ token ∈ tokens, position ≤ token.position := by
  induction position, spaced, text using scan.induct alphabet generalizing tokens with
  | case1 =>
      rw [scan] at h
      cases h
      simp
  | case2 position spaced first rest hblank ih =>
      rw [scan, if_pos hblank] at h
      exact fun token htoken => (Nat.le_succ position).trans (ih h token htoken)
  | case3 position spaced first rest hblank hlexeme =>
      rw [scan, if_neg hblank, hlexeme] at h
      cases h
  | case4 position spaced first rest hblank kind count hlexeme ih =>
      rw [scan, if_neg hblank, hlexeme] at h
      obtain ⟨others, hothers, h⟩ := exists_of_bind h
      cases h
      exact List.forall_mem_cons.mpr ⟨le_rfl, fun token htoken =>
        (by omega : position ≤ position + count + 1).trans (ih hothers token htoken)⟩

/-- Scanning a token first. -/
theorem scan_of_lexeme? {alphabet : Alphabet} (hblank : Text.isBlank first = false)
    (hlexeme : lexeme? alphabet first (front ++ more) = some (kind, front.length))
    (hmore : scan alphabet (position + front.length + 1) false more = .ok others) :
    scan alphabet position spaced (first :: (front ++ more)) =
      .ok (⟨kind, String.ofList (first :: front), position, spaced⟩ :: others) := by
  rw [scan]
  simp only [hblank, Bool.false_eq_true, if_false, hlexeme, List.take_left, List.drop_left, hmore]
  rfl

theorem scan_bracket {c : Char} {kind : TokenKind}
    (hc : c = '(' ∧ kind = .opening ∨ c = ')' ∧ kind = .closing)
    (hmore : scan standardAlphabet (position + 1) false more = .ok others) :
    scan standardAlphabet position spaced (c :: more) =
      .ok (⟨kind, String.singleton c, position, spaced⟩ :: others) := by
  have hlexeme : lexeme? standardAlphabet c ([] ++ more) =
      some (kind, ([] : List Char).length) := by
    rcases hc with ⟨rfl, rfl⟩ | ⟨rfl, rfl⟩ <;>
      rw [lexeme?, numberLength_eq_zero (by decide) (by decide)] <;> rfl
  have hblank : Text.isBlank c = false := by
    rcases hc with ⟨rfl, -⟩ | ⟨rfl, -⟩ <;> decide +kernel
  exact scan_of_lexeme? hblank hlexeme hmore

/-- The tokens of a text before a bracket are the same wherever the text stands. -/
theorem exists_scan_append_bracket (h : scan standardAlphabet position spaced text = .ok tokens) :
    ∃ blank, ∀ position' c more others, c ∈ brackets →
      scan standardAlphabet (position' + text.length) blank (c :: more) = .ok others →
      ∃ tokens', scan standardAlphabet position' spaced (text ++ c :: more) =
          .ok (tokens' ++ others) ∧ tokens'.map unplaced = tokens.map unplaced := by
  induction position, spaced, text using scan.induct standardAlphabet generalizing tokens with
  | case1 position spaced =>
      rw [scan] at h
      cases h
      exact ⟨spaced, fun position' c more others _ hothers => ⟨[], hothers, rfl⟩⟩
  | case2 position spaced first rest hblank ih =>
      rw [scan, if_pos hblank] at h
      obtain ⟨blank, hall⟩ := ih h
      refine ⟨blank, fun position' c more others hc hothers => ?_⟩
      rw [List.length_cons, Nat.add_comm rest.length, ← Nat.add_assoc] at hothers
      rw [List.cons_append, scan, if_pos hblank]
      exact hall (position' + 1) c more others hc hothers
  | case3 position spaced first rest hblank hlexeme =>
      rw [scan, if_neg hblank, hlexeme] at h
      cases h
  | case4 position spaced first rest hblank kind count hlexeme ih =>
      rw [scan, if_neg hblank, hlexeme] at h
      obtain ⟨tail, htail, h⟩ := exists_of_bind h
      cases h
      obtain ⟨blank, hall⟩ := ih htail
      refine ⟨blank, fun position' c more others hc hothers => ?_⟩
      have hcount := lexeme?_le hlexeme
      have htake : (rest.take count).length = count := List.length_take_of_le hcount
      have hsplit : rest ++ c :: more = rest.take count ++ (rest.drop count ++ c :: more) := by
        rw [← List.append_assoc, List.take_append_drop]
      have hlexeme' : lexeme? standardAlphabet first
          (rest.take count ++ (rest.drop count ++ c :: more)) =
            some (kind, (rest.take count).length) := by
        rw [← hsplit, lexeme?_append_bracket hc, hlexeme, htake]
      obtain ⟨tokens', hscan, htokens⟩ := hall (position' + count + 1) c more others hc (by
        rw [List.length_drop]
        rw [List.length_cons] at hothers
        rwa [show position' + count + 1 + (rest.length - count) = position' + (rest.length + 1) by
          omega])
      refine ⟨⟨kind, String.ofList (first :: rest.take count), position', spaced⟩ :: tokens', ?_,
        ?_⟩
      · rw [List.cons_append, hsplit]
        exact scan_of_lexeme? (Bool.not_eq_true _ ▸ hblank) hlexeme' (by rwa [htake])
      · simp [unplaced, htokens]

end ExactAlgebra.Token
