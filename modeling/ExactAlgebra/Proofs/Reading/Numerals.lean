import ExactAlgebra.Proofs.Reading.Faults

/-!
# Numbers in tokens

The text of a number token is digits, possibly with a point among them, and possibly an exponent.
It is read as a number.  Tokens lie in the text one after the other.
-/

namespace ExactAlgebra

/-! ## Digits and blanks -/

namespace Text

/-- A decimal digit is in one of the blocks of ten. -/
theorem exists_zero_of_isDecimalDigit {c : Char} (h : isDecimalDigit c = true) :
    ∃ first ∈ zeros.toList, first ≤ c.toNat ∧ c.toNat < first + 10 := by
  rw [isDecimalDigit, digitValue?] at h
  split_ifs at h with hascii hdigit
  · exact ⟨48, by decide, UInt32.le_iff_toNat_le.mp hdigit.1,
      Nat.lt_succ_of_le (UInt32.le_iff_toNat_le.mp hdigit.2)⟩
  · cases h
  · rw [Option.isSome_map, Array.find?_isSome] at h
    obtain ⟨first, hmem, hfirst⟩ := h
    simp only [Bool.and_eq_true, decide_eq_true_eq] at hfirst
    exact ⟨first, Array.mem_toList_iff.mpr hmem, hfirst⟩

/-- No digit is blank. -/
theorem isBlank_of_isDecimalDigit {c : Char} (h : isDecimalDigit c = true) :
    isBlank c = false := by
  have hapart : ∀ first ∈ zeros.toList, ∀ range ∈ blanks.toList,
      first + 10 ≤ range.1 ∨ range.2 < first := by
    decide +kernel
  obtain ⟨first, hfirst, hle, hlt⟩ := exists_zero_of_isDecimalDigit h
  rw [isBlank, CharRanges.holds, ← Array.any_toList, List.any_eq_false]
  intro range hrange
  have := hapart first hfirst range hrange
  simp only [Bool.and_eq_true, decide_eq_true_eq]
  omega

/-- The other characters of numbers. -/
def numberMarks : List Char := ['.', 'e', 'E', '+', '-']

theorem isDecimalDigit_mark {c : Char} (h : c ∈ '_' :: '/' :: numberMarks) :
    isDecimalDigit c = false := by
  simp only [numberMarks, List.mem_cons, List.not_mem_nil, or_false] at h
  rcases h with rfl | rfl | rfl | rfl | rfl | rfl | rfl <;> decide +kernel

theorem isBlank_mark {c : Char} (h : c ∈ numberMarks) : isBlank c = false := by
  simp only [numberMarks, List.mem_cons, List.not_mem_nil, or_false] at h
  rcases h with rfl | rfl | rfl | rfl | rfl <;> decide +kernel

end Text

namespace Token

variable {text : List Char}

/-! ## The parts of a number -/

/-- An exponent, or nothing. -/
inductive IsExponent : List Char → Prop
  | none : IsExponent []
  | plain {mark : Char} {digits : List Char} (hmark : mark = 'e' ∨ mark = 'E')
      (hne : digits ≠ []) (hdigits : ∀ c ∈ digits, Text.isDecimalDigit c = true) :
      IsExponent (mark :: digits)
  | signed {mark sign : Char} {digits : List Char} (hmark : mark = 'e' ∨ mark = 'E')
      (hsign : sign = '-' ∨ sign = '+') (hne : digits ≠ [])
      (hdigits : ∀ c ∈ digits, Text.isDecimalDigit c = true) : IsExponent (mark :: sign :: digits)

/-- Digits, possibly with a point among them. -/
inductive IsMantissa : List Char → Prop
  | whole {digits : List Char} (hne : digits ≠ [])
      (hdigits : ∀ c ∈ digits, Text.isDecimalDigit c = true) : IsMantissa digits
  | point {digits fraction : List Char} (hne : ¬ (digits = [] ∧ fraction = []))
      (hdigits : ∀ c ∈ digits, Text.isDecimalDigit c = true)
      (hfraction : ∀ c ∈ fraction, Text.isDecimalDigit c = true) :
      IsMantissa (digits ++ '.' :: fraction)

theorem exists_digits (text : List Char) :
    ∃ digits rest, text = digits ++ rest ∧ digitsLength text = digits.length ∧
      ∀ c ∈ digits, Text.isDecimalDigit c = true :=
  ⟨text.takeWhile Text.isDecimalDigit, text.dropWhile Text.isDecimalDigit,
    List.takeWhile_append_dropWhile.symm, rfl, fun _ hc => List.mem_takeWhile_imp hc⟩

theorem exists_exponent (text : List Char) :
    ∃ exponent rest, text = exponent ++ rest ∧ exponentLength text = exponent.length ∧
      IsExponent exponent := by
  have hnone : ∃ exponent rest, text = exponent ++ rest ∧ 0 = exponent.length ∧
      IsExponent exponent := ⟨[], text, rfl, rfl, .none⟩
  fun_cases exponentLength text with
  | case1 | case5 | case6 | case7 => exact hnone
  | case2 mark hmark sign digits hsign hpos =>
      obtain ⟨run, rest, rfl, hlength, hdigits⟩ := exists_digits digits
      refine ⟨mark :: sign :: run, rest, rfl, by simp [hlength], .signed hmark hsign ?_ hdigits⟩
      rintro rfl
      exact hpos hlength
  | case3 mark hmark sign digits hsign hzero =>
      rw [if_pos hzero]
      exact hnone
  | case4 mark hmark sign digits hsign hpos =>
      obtain ⟨run, rest, hrun, hlength, hdigits⟩ := exists_digits (sign :: digits)
      rw [if_neg hpos]
      refine ⟨mark :: run, rest, by simp [hrun], by simp [hlength], .plain hmark ?_ hdigits⟩
      rintro rfl
      exact hpos hlength

theorem exists_mantissa {text : List Char} (h : mantissaLength text ≠ 0) :
    ∃ mantissa rest, text = mantissa ++ rest ∧ mantissaLength text = mantissa.length ∧
      IsMantissa mantissa := by
  obtain ⟨digits, tail, htext, hlength, hdigits⟩ := exists_digits text
  have hdrop : text.drop digits.length = tail := by rw [htext, List.drop_left]
  unfold mantissaLength at h ⊢
  simp only [hlength, hdrop] at h ⊢
  split at h
  next more =>
    obtain ⟨fraction, rest, rfl, hfraction, hdigits'⟩ := exists_digits more
    simp only [hfraction, List.length_eq_zero_iff, ne_eq, ite_eq_left_iff, Classical.not_imp] at h ⊢
    rw [if_neg h.1]
    exact ⟨digits ++ '.' :: fraction, rest, by simp [htext], by simp; omega,
      .point h.1 hdigits hdigits'⟩
  next =>
    exact ⟨digits, tail, htext, rfl, .whole (by simpa using h) hdigits⟩

/-- A number token is a mantissa and an exponent. -/
theorem exists_number {text : List Char} (h : 0 < numberLength text) :
    ∃ mantissa exponent rest, text = mantissa ++ exponent ++ rest ∧
      numberLength text = (mantissa ++ exponent).length ∧ IsMantissa mantissa ∧
      IsExponent exponent := by
  have hne : mantissaLength text ≠ 0 := fun hzero => by simp [numberLength, hzero] at h
  obtain ⟨mantissa, tail, htext, hlength, hmantissa⟩ := exists_mantissa hne
  have hdrop : text.drop mantissa.length = tail := by rw [htext, List.drop_left]
  rw [hlength] at hne
  obtain ⟨exponent, rest, htail, hlength', hexponent⟩ := exists_exponent tail
  refine ⟨mantissa, exponent, rest, by rw [htext, htail, List.append_assoc], ?_, hmantissa,
    hexponent⟩
  simp only [numberLength, hlength, if_neg hne, hdrop, hlength', List.length_append]

end Token

/-! ## Reading numbers -/

namespace Numeral

open Token

variable {digits mantissa exponent rest : List Char}

/-- Digits end where neither a digit nor an underscore follows. -/
theorem digitRun_append (hdigits : ∀ c ∈ digits, Text.isDecimalDigit c = true)
    (hrest : ∀ c ∈ rest.head?, Text.isDecimalDigit c = false ∧ c ≠ '_') (after : Bool) :
    digitRun after (digits ++ rest) = (digits, rest) := by
  induction digits generalizing after with
  | nil =>
      cases rest with
      | nil => rfl
      | cons c rest =>
          obtain ⟨hdigit, hline⟩ := hrest c rfl
          simp [digitRun, hdigit, hline]
  | cons c digits ih =>
      obtain ⟨hc, hdigits⟩ := List.forall_mem_cons.mp hdigits
      rw [List.cons_append, digitRun, if_pos hc, ih hdigits]

theorem digitRun_of_digits (hdigits : ∀ c ∈ digits, Text.isDecimalDigit c = true) :
    digitRun false digits = (digits, []) := by
  simpa using digitRun_append hdigits (fun c (hc : c ∈ ([] : List Char).head?) => nomatch hc) false

theorem head?_exponent (h : IsExponent exponent) : ∀ c ∈ exponent.head?, c = 'e' ∨ c = 'E' := by
  cases h with
  | none => simp
  | plain hmark | signed hmark => simpa using hmark

theorem signOf_of_digit {c : Char} (h : Text.isDecimalDigit c = true ∨ c = '.')
    (rest : List Char) : signOf (c :: rest) = (false, c :: rest) := by
  have hminus : Text.isDecimalDigit '-' = false := Text.isDecimalDigit_mark (by decide)
  have hplus : Text.isDecimalDigit '+' = false := Text.isDecimalDigit_mark (by decide)
  unfold signOf
  split
  next heq =>
    obtain rfl := (List.cons.inj heq).1
    simp [hminus] at h
  next heq =>
    obtain rfl := (List.cons.inj heq).1
    simp [hplus] at h
  next => rfl

/-- All of an exponent is read. -/
theorem exponent?_of_isExponent (h : IsExponent exponent) :
    ∃ value, exponent? exponent = some (value, []) := by
  cases h with
  | none => exact ⟨0, rfl⟩
  | @plain mark digits hmark hne hdigits =>
      obtain ⟨c, more, rfl⟩ := List.exists_cons_of_ne_nil hne
      have hrun := digitRun_of_digits hdigits
      have hsign := signOf_of_digit (.inl (hdigits c (by simp))) more
      refine ⟨Text.digitsValue (c :: more), ?_⟩
      simp only [exponent?, hmark, if_true, hsign, Numeral.digits, hrun, Bool.false_eq_true,
        if_false]
  | @signed mark sign digits hmark hsign hne hdigits =>
      obtain ⟨c, more, rfl⟩ := List.exists_cons_of_ne_nil hne
      have hrun := digitRun_of_digits hdigits
      rcases hsign with rfl | rfl
      · exact ⟨-Text.digitsValue (c :: more), by
          simp only [exponent?, hmark, if_true, signOf, Numeral.digits, hrun]⟩
      · exact ⟨Text.digitsValue (c :: more), by
          simp only [exponent?, hmark, if_true, signOf, Numeral.digits, hrun, Bool.false_eq_true,
            if_false]⟩

/-- A number without its sign is read as a number. -/
theorem magnitude?_of_number (hmantissa : IsMantissa mantissa) (hexponent : IsExponent exponent) :
    ∃ value, magnitude? false (mantissa ++ exponent) = some (.number value) := by
  obtain ⟨power, hpower⟩ := exponent?_of_isExponent hexponent
  have hmark : ∀ c ∈ exponent.head?, Text.isDecimalDigit c = false ∧ c ≠ '_' := by
    intro c hc
    rcases head?_exponent hexponent c hc with rfl | rfl
    · exact ⟨Text.isDecimalDigit_mark (by decide), by decide⟩
    · exact ⟨Text.isDecimalDigit_mark (by decide), by decide⟩
  cases hmantissa with
  | @whole digits hne hdigits =>
      have hrun := digitRun_append hdigits hmark false
      have hempty : mantissa.isEmpty = false := by simpa using hne
      refine ⟨Ratio.scaled 10 (Text.digitsValue mantissa) power, ?_⟩
      simp only [magnitude?, Numeral.digits, hrun]
      split
      next => cases head?_exponent hexponent _ rfl <;> contradiction
      next => cases head?_exponent hexponent _ rfl <;> contradiction
      next => simp [hpower, hempty]
  | @point digits fraction hne hdigits hfraction =>
      have hpoint : ∀ c ∈ ('.' :: (fraction ++ exponent)).head?,
          Text.isDecimalDigit c = false ∧ c ≠ '_' := by
        rintro c ⟨⟩
        exact ⟨Text.isDecimalDigit_mark (by decide), by decide⟩
      have hrun := digitRun_append hdigits hpoint false
      have hrun' := digitRun_append hfraction hmark false
      have hempty : (digits.isEmpty && fraction.isEmpty) = false := by
        simpa [Bool.and_eq_false_iff, List.isEmpty_eq_false_iff] using hne
      refine ⟨Ratio.scaled 10 (Text.digitsValue (digits ++ fraction)) (power - fraction.length), ?_⟩
      rw [List.append_assoc, List.cons_append]
      simp only [magnitude?, Numeral.digits, hrun, hrun', hpower, hempty, Bool.false_eq_true,
        if_false, Option.bind_eq_bind, Option.bind_some, List.isEmpty_nil, if_true]

theorem digit_or_mark (hmantissa : IsMantissa mantissa) (hexponent : IsExponent exponent) :
    ∀ c ∈ mantissa ++ exponent, Text.isDecimalDigit c = true ∨ c ∈ Text.numberMarks := by
  have hmark : ∀ c, c = 'e' ∨ c = 'E' → c ∈ Text.numberMarks := by
    rintro c (rfl | rfl) <;> decide
  have hsign : ∀ c, c = '-' ∨ c = '+' → c ∈ Text.numberMarks := by
    rintro c (rfl | rfl) <;> decide
  refine List.forall_mem_append.mpr ⟨?_, ?_⟩
  · cases hmantissa with
    | whole _ hdigits => exact fun c hc => .inl (hdigits c hc)
    | point _ hdigits hfraction =>
        exact List.forall_mem_append.mpr ⟨fun c hc => .inl (hdigits c hc),
          List.forall_mem_cons.mpr ⟨.inr (by decide), fun c hc => .inl (hfraction c hc)⟩⟩
  · cases hexponent with
    | none => exact nofun
    | plain hletter _ hdigits =>
        exact List.forall_mem_cons.mpr ⟨.inr (hmark _ hletter), fun c hc => .inl (hdigits c hc)⟩
    | signed hletter hminus _ hdigits =>
        exact List.forall_mem_cons.mpr ⟨.inr (hmark _ hletter),
          List.forall_mem_cons.mpr ⟨.inr (hsign _ hminus), fun c hc => .inl (hdigits c hc)⟩⟩

/-- A mantissa has no sign. -/
theorem signOf_mantissa (hmantissa : IsMantissa mantissa) (rest : List Char) :
    signOf (mantissa ++ rest) = (false, mantissa ++ rest) := by
  cases hmantissa with
  | whole hne hdigits =>
      obtain ⟨c, more, rfl⟩ := List.exists_cons_of_ne_nil hne
      exact signOf_of_digit (.inl (hdigits c List.mem_cons_self)) _
  | @point digits fraction _ hdigits _ =>
      cases digits with
      | nil => exact signOf_of_digit (.inr rfl) _
      | cons c more => exact signOf_of_digit (.inl (hdigits c List.mem_cons_self)) _

/-- The text of a number token denotes a number. -/
theorem exists_toRat {text : String} (hmantissa : IsMantissa mantissa)
    (hexponent : IsExponent exponent) (htext : text.toList = mantissa ++ exponent) :
    ∃ value, toRat text = .ok value := by
  have hblank : ∀ c ∈ mantissa ++ exponent, Text.isBlank c = false := fun c hc =>
    (digit_or_mark hmantissa hexponent c hc).elim Text.isBlank_of_isDecimalDigit Text.isBlank_mark
  obtain ⟨value, hvalue⟩ := magnitude?_of_number hmantissa hexponent
  have hreading : reading? text.toList = some (.number value) := by
    rw [reading?, htext, trimBlanks_digits hblank, signOf_mantissa hmantissa]
    exact hvalue
  exact ⟨value, by rw [toRat, hreading]⟩

end Numeral

/-! ## Tokens of a text -/

namespace Token

variable {alphabet : Alphabet} {first : Char} {rest : List Char} {kind : TokenKind} {count : Nat}

/-- A token ends in the text. -/
theorem lexeme?_le (h : lexeme? alphabet first rest = some (kind, count)) :
    count ≤ rest.length := by
  unfold lexeme? at h
  dsimp only at h
  split_ifs at h with hnumber <;> cases h
  · obtain ⟨mantissa, exponent, tail, htext, hlength, -, -⟩ := exists_number hnumber
    have htotal := congrArg List.length htext
    rw [List.length_append, ← hlength, List.length_cons] at htotal
    omega
  · exact (List.takeWhile_prefix _).length_le
  · exact Nat.zero_le _
  · exact Nat.zero_le _
  · exact Nat.zero_le _
  · exact (List.takeWhile_prefix _).length_le

/-- What the text of a token looks like. -/
structure Lexed (token : Token) : Prop where
  ne : token.text.toList ≠ []
  number : token.kind = .number → ∃ value, Numeral.toRat token.text = .ok value

theorem lexed (h : lexeme? alphabet first rest = some (kind, count)) (position : Nat)
    (spaced : Bool) : Lexed ⟨kind, String.ofList (first :: rest.take count), position, spaced⟩ := by
  refine ⟨by simp, fun hkind => ?_⟩
  obtain rfl : kind = .number := hkind
  unfold lexeme? at h
  dsimp only at h
  split_ifs at h with hnumber <;> cases h
  obtain ⟨mantissa, exponent, tail, htext, hlength, hmantissa, hexponent⟩ := exists_number hnumber
  refine Numeral.exists_toRat hmantissa hexponent ?_
  rw [String.toList_ofList, ← List.take_succ_cons, Nat.sub_add_cancel hnumber, hlength,
    htext, List.take_left]

/-- Tokens lie between the places of a text. -/
theorem spec_of_mem_scan {position : Nat} {spaced : Bool} {characters : List Char}
    {tokens : List Token} (h : scan alphabet position spaced characters = .ok tokens) :
    ∀ token ∈ tokens, Lexed token ∧
      token.position + token.text.toList.length ≤ position + characters.length := by
  induction position, spaced, characters using scan.induct alphabet generalizing tokens with
  | case1 =>
      rw [scan] at h
      cases h
      simp
  | case2 position spaced first rest hblank ih =>
      rw [scan, if_pos hblank] at h
      intro token htoken
      obtain ⟨hlexed, hplace⟩ := ih h token htoken
      exact ⟨hlexed, by rw [List.length_cons]; omega⟩
  | case3 position spaced first rest hblank hlexeme =>
      rw [scan, if_neg hblank, hlexeme] at h
      cases h
  | case4 position spaced first rest hblank kind count hlexeme ih =>
      rw [scan, if_neg hblank, hlexeme] at h
      obtain ⟨others, hothers, h⟩ := exists_of_bind h
      cases h
      have hcount := lexeme?_le hlexeme
      refine List.forall_mem_cons.mpr ⟨⟨lexed hlexeme position spaced, ?_⟩, fun token htoken => ?_⟩
      · simp only [String.toList_ofList, List.length_cons, List.length_take]
        omega
      · obtain ⟨htoken, hplace⟩ := ih hothers token htoken
        refine ⟨htoken, hplace.trans ?_⟩
        rw [List.length_drop, List.length_cons]
        omega

/-- A scan that fails has come to a character that is not blank and starts no token. -/
theorem exists_invalid_of_error {position : Nat} {spaced : Bool} {characters : List Char}
    {fault : Fault} (h : scan alphabet position spaced characters = .error fault) :
    ∃ front c rest, characters = front ++ c :: rest ∧ Text.isBlank c = false ∧
      lexeme? alphabet c rest = none ∧
      fault = .parse (.invalidCharacter c) (position + front.length) := by
  induction position, spaced, characters using scan.induct alphabet with
  | case1 position spaced =>
      rw [scan] at h
      cases h
  | case2 position spaced first rest hblank ih =>
      rw [scan, if_pos hblank] at h
      rcases ih h with ⟨front, c, more, rfl, hc, hnone, rfl⟩
      refine ⟨first :: front, c, more, rfl, hc, hnone, ?_⟩
      rw [List.length_cons, Nat.add_right_comm, Nat.add_assoc]
  | case3 position spaced first rest hblank hlexeme =>
      rw [scan, if_neg hblank, hlexeme] at h
      cases h
      exact ⟨[], first, rest, rfl, (Bool.not_eq_true _).mp hblank, hlexeme, rfl⟩
  | case4 position spaced first rest hblank kind count hlexeme ih =>
      rw [scan, if_neg hblank, hlexeme] at h
      dsimp only at h
      cases hmore : scan alphabet (position + count + 1) false (rest.drop count) with
      | ok others =>
          rw [hmore] at h
          cases h
      | error found =>
          rw [hmore] at h
          cases h
          rcases ih hmore with ⟨front, c, more, hrest, hc, hnone, rfl⟩
          refine ⟨first :: rest.take count ++ front, c, more, ?_, hc, hnone, ?_⟩
          · rw [List.append_assoc, ← hrest, List.cons_append, List.take_append_drop]
          · rw [List.length_append, List.length_cons, List.length_take_of_le (lexeme?_le hlexeme)]
            congr 1
            omega

theorem located_scan (alphabet : Alphabet) (position : Nat) (spaced : Bool)
    (characters : List Char) :
    Located (fun place => place ≤ position + characters.length)
      (scan alphabet position spaced characters) := by
  intro fault hfault
  rcases exists_invalid_of_error hfault with ⟨front, c, rest, rfl, -, -, rfl⟩
  refine ⟨_, _, rfl, ?_⟩
  rw [List.length_append]
  omega

end Token

end ExactAlgebra
