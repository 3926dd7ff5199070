import ExactAlgebra.Proofs.Reading.Seams

/-!
# Texts with a text in place of a name

Where a text has a name as an operand, another text can stand in brackets.  The tokens of the
result are those of the first text, with the bracketed tokens of the other one in place of the
name.
-/

namespace ExactAlgebra

namespace Token

/-! ## Definitions -/

/-- True for an operand with a name.  The head of a call is none. -/
def isOperandNamed (isFunction : String → Bool) (name : String) (token : Token)
    (rest : List Token) : Bool :=
  token.kind == .name && token.text == name &&
    !(isFunction name && rest.head?.any fun next => next.kind == .opening)

/-- A text from a position on, with a body in brackets in place of each of its operands with a
name. -/
def inlineFrom (isFunction : String → Bool) (name : String) (body : List Char) :
    (position : Nat) → (text : List Char) → (tokens : List Token) → List Char
  | _, text, [] => text
  | position, text, token :: rest =>
      let gap := token.position - position
      let size := token.text.length
      text.take gap ++
        ((if token.isOperandNamed isFunction name rest then '(' :: body ++ [')']
          else token.text.toList) ++
        inlineFrom isFunction name body (token.position + size) (text.drop (gap + size)) rest)

/-- Tokens with a number without digits in place of each operand with a name. -/
def marked (isFunction : String → Bool) (name : String) : List Token → List Token
  | [] => []
  | token :: rest =>
      (if token.isOperandNamed isFunction name rest
        then { token with kind := .number, text := "" } else token) ::
        marked isFunction name rest

/-- Bracketed tokens for a number without digits. -/
def expanded (body : List Token) (blank : Bool) (token : Token) : List Token :=
  if token.kind = .number ∧ token.text = "" then
    ⟨.opening, "(", 0, token.spaced⟩ :: body ++ [⟨.closing, ")", 0, blank⟩]
  else [token]

end Token

namespace Environment

/-- A text with another one in brackets in place of each operand with a name. -/
def inlined (env : Environment) (name body text : String) : Except Fault String := do
  let tokens ← env.tokens env.operators text
  return String.ofList
    (Token.inlineFrom env.functions.contains name body.toList 0 text.toList tokens)

end Environment

namespace Token

variable {isFunction : String → Bool} {name : String} {body : List Char} {first : Char}
  {rest text : List Char} {position count : Nat} {spaced : Bool} {kind : TokenKind}
  {token : Token} {tokens others bodyTokens : List Token}

/-! ## Characters -/

/-- What stands in front of all tokens stays. -/
theorem inlineFrom_cons (h : ∀ token ∈ tokens, position + 1 ≤ token.position) (first : Char)
    (rest : List Char) : inlineFrom isFunction name body position (first :: rest) tokens =
      first :: inlineFrom isFunction name body (position + 1) rest tokens := by
  cases tokens with
  | nil => rfl
  | cons token others =>
      have hle := h token List.mem_cons_self
      obtain ⟨gap, hgap⟩ : ∃ gap, token.position - position = gap + 1 :=
        ⟨token.position - position - 1, by omega⟩
      have hgap' : token.position - (position + 1) = gap := by omega
      simp only [inlineFrom, hgap, hgap', List.take_succ_cons, Nat.add_right_comm gap 1,
        List.drop_succ_cons, List.cons_append]

theorem inlineFrom_lexeme (hcount : count ≤ rest.length) (others : List Token) :
    inlineFrom isFunction name body position (first :: rest)
        (⟨kind, String.ofList (first :: rest.take count), position, spaced⟩ :: others) =
      (if isOperandNamed isFunction name
          ⟨kind, String.ofList (first :: rest.take count), position, spaced⟩ others
        then '(' :: body ++ [')'] else first :: rest.take count) ++
      inlineFrom isFunction name body (position + count + 1) (rest.drop count) others := by
  have hsize : (String.ofList (first :: rest.take count)).length = count + 1 := by
    rw [String.length_ofList, List.length_cons, List.length_take_of_le hcount]
  simp only [inlineFrom, hsize, Nat.sub_self, List.take_zero, List.nil_append, Nat.zero_add,
    List.drop_succ_cons, String.toList_ofList, Nat.add_assoc]

theorem kind_of_isOperandNamed (h : isOperandNamed isFunction name token others = true) :
    token.kind = .name := by
  simp only [isOperandNamed, Bool.and_eq_true, beq_iff_eq] at h
  exact h.1.1

theorem isLetter_of_isOperandNamed
    (hlexeme : lexeme? standardAlphabet first rest = some (kind, count))
    (h : isOperandNamed isFunction name
      ⟨kind, String.ofList (first :: rest.take count), position, spaced⟩ others = true) :
    isLetter standardAlphabet first = true := by
  obtain rfl : kind = .name := kind_of_isOperandNamed h
  unfold lexeme? at hlexeme
  dsimp only at hlexeme
  split_ifs at hlexeme with _ hletter <;> first | exact hletter | simp at hlexeme

/-- A text stays as it is up to the first operand that is replaced, where a bracket takes the place
of a letter. -/
theorem inlineFrom_eq_or (h : scan standardAlphabet position spaced text = .ok tokens) :
    inlineFrom isFunction name body position text tokens = text ∨
      ∃ front c more more', text = front ++ c :: more ∧ isLetter standardAlphabet c = true ∧
        inlineFrom isFunction name body position text tokens = front ++ '(' :: more' := by
  induction position, spaced, text using scan.induct standardAlphabet generalizing tokens with
  | case1 =>
      rw [scan] at h
      cases h
      exact .inl rfl
  | case2 position spaced first rest hblank ih =>
      rw [scan, if_pos hblank] at h
      rw [inlineFrom_cons (le_position_of_mem_scan h)]
      rcases ih h with heq | ⟨front, c, more, more', rfl, hc, heq⟩
      · exact .inl (by rw [heq])
      · exact .inr ⟨first :: front, c, more, more', rfl, hc, by rw [heq, List.cons_append]⟩
  | case3 position spaced first rest hblank hlexeme =>
      rw [scan, if_neg hblank, hlexeme] at h
      cases h
  | case4 position spaced first rest hblank kind count hlexeme ih =>
      rw [scan, if_neg hblank, hlexeme] at h
      obtain ⟨others, hothers, h⟩ := exists_of_bind h
      cases h
      rw [inlineFrom_lexeme (lexeme?_le hlexeme)]
      split_ifs with hoperand
      · exact .inr ⟨[], first, rest, _, rfl, isLetter_of_isOperandNamed hlexeme hoperand, rfl⟩
      · rcases ih hothers with heq | ⟨front, c, more, more', hrest, hc, heq⟩
        · left
          rw [heq, List.cons_append, List.take_append_drop]
        · right
          refine ⟨first :: rest.take count ++ front, c, more, more', ?_, hc, ?_⟩
          · rw [List.cons_append, List.cons_append, List.append_assoc, ← hrest,
              List.take_append_drop]
          · rw [heq, List.append_assoc]

/-- A token stays what it is when operands after it are replaced. -/
theorem lexeme?_inlineFrom (isFunction : String → Bool) (name : String) (body : List Char)
    (hlexeme : lexeme? standardAlphabet first rest = some (kind, count))
    (h : scan standardAlphabet position spaced (rest.drop count) = .ok others) :
    lexeme? standardAlphabet first (rest.take count ++
        inlineFrom isFunction name body position (rest.drop count) others) =
      some (kind, count) := by
  rcases inlineFrom_eq_or h with heq | ⟨front, c, more, more', hrest, hc, heq⟩
  · rw [heq, List.take_append_drop, hlexeme]
  · have hcount : count ≤ (rest.take count ++ front).length := by
      rw [List.length_append, List.length_take_of_le (lexeme?_le hlexeme)]
      omega
    rw [← List.take_append_drop count rest, hrest, ← List.append_assoc] at hlexeme
    rw [heq, ← List.append_assoc, lexeme?_append_bracket (by decide)]
    exact lexeme?_of_append_letter hc hlexeme hcount

/-! ## Tokens -/

theorem expanded_of_text_ne (h : token.text.toList ≠ []) (body : List Token) (blank : Bool) :
    expanded body blank token = [token] := by
  refine if_neg fun hmark => h ?_
  rw [hmark.2]
  rfl

/-- The tokens of a text with a body in place of a name: those of the body come between brackets,
and the others stay. -/
theorem exists_scan_inlineFrom (isFunction : String → Bool) (name : String)
    (hbody : scan standardAlphabet 0 false body = .ok bodyTokens) :
    ∃ blank, ∀ {position spaced text tokens},
      scan standardAlphabet position spaced text = .ok tokens → ∀ position', ∃ tokens',
        scan standardAlphabet position' spaced
            (inlineFrom isFunction name body position text tokens) = .ok tokens' ∧
          tokens'.map unplaced =
            ((marked isFunction name tokens).flatMap (expanded bodyTokens blank)).map unplaced := by
  obtain ⟨blank, hclose⟩ := exists_scan_append_bracket hbody
  refine ⟨blank, fun {position spaced text tokens} h position' => ?_⟩
  induction position, spaced, text using scan.induct standardAlphabet
    generalizing tokens position' with
  | case1 =>
      rw [scan] at h
      cases h
      exact ⟨[], by rw [inlineFrom, scan], rfl⟩
  | case2 position spaced first rest hblank ih =>
      rw [scan, if_pos hblank] at h
      rw [inlineFrom_cons (le_position_of_mem_scan h), scan, if_pos hblank]
      exact ih h (position' + 1)
  | case3 position spaced first rest hblank hlexeme =>
      rw [scan, if_neg hblank, hlexeme] at h
      cases h
  | case4 position spaced first rest hblank kind count hlexeme ih =>
      rw [scan, if_neg hblank, hlexeme] at h
      obtain ⟨others, hothers, h⟩ := exists_of_bind h
      cases h
      have hcount := lexeme?_le hlexeme
      rw [inlineFrom_lexeme hcount, marked]
      split_ifs with hoperand
      · obtain ⟨tail, htail, hsame⟩ := ih hothers (position' + 1 + body.length + 1)
        obtain ⟨inner, hinner, hsame'⟩ := hclose (position' + 1) ')' _ _ (by decide)
          (scan_bracket (.inr ⟨rfl, rfl⟩) htail)
        refine ⟨⟨.opening, String.singleton '(', position', spaced⟩ :: (inner ++
          ⟨.closing, String.singleton ')', position' + 1 + body.length, blank⟩ :: tail), ?_, ?_⟩
        · rw [List.append_assoc, List.cons_append, List.singleton_append]
          exact scan_bracket (.inl ⟨rfl, rfl⟩) hinner
        · simp [expanded, unplaced, hsame, hsame']
      · obtain ⟨tail, htail, hsame⟩ := ih hothers (position' + count + 1)
        have hlength : (rest.take count).length = count := List.length_take_of_le hcount
        refine ⟨⟨kind, String.ofList (first :: rest.take count), position', spaced⟩ :: tail, ?_, ?_⟩
        · refine scan_of_lexeme? (Bool.not_eq_true _ ▸ hblank) ?_ (by rwa [hlength])
          rw [lexeme?_inlineFrom isFunction name body hlexeme hothers, hlength]
        · rw [List.flatMap_cons, expanded_of_text_ne (by simp)]
          simp [unplaced, hsame]

/-! ## Names next to each other -/

/-- A blank before all tokens is before the first. -/
theorem spaced_of_scan {alphabet : Alphabet} (hspaced : spaced = true)
    (h : scan alphabet position spaced text = .ok tokens) :
    ∀ token ∈ tokens.head?, token.spaced = true := by
  induction position, spaced, text using scan.induct alphabet generalizing tokens with
  | case1 =>
      rw [scan] at h
      cases h
      simp
  | case2 position spaced first rest hblank ih =>
      rw [scan, if_pos hblank] at h
      exact ih rfl h
  | case3 position spaced first rest hblank hlexeme =>
      rw [scan, if_neg hblank, hlexeme] at h
      cases h
  | case4 position spaced first rest hblank kind count hlexeme _ =>
      rw [scan, if_neg hblank, hlexeme] at h
      obtain ⟨others, -, h⟩ := exists_of_bind h
      cases h
      simpa using hspaced

theorem name_of_lexeme? {alphabet : Alphabet}
    (h : lexeme? alphabet first rest = some (.name, count)) :
    isLetter alphabet first = true ∧
      count = (rest.takeWhile (continuesName alphabet)).length := by
  unfold lexeme? at h
  dsimp only at h
  split_ifs at h with _ hletter <;> simp only [Option.some.injEq, Prod.mk.injEq, reduceCtorEq,
    false_and, true_and] at h
  exact ⟨hletter, h.symm⟩

/-- A name right at the start of a text starts with a letter. -/
theorem isLetter_of_scan {alphabet : Alphabet} (h : scan alphabet position false text = .ok tokens)
    {token : Token} (htoken : token ∈ tokens.head?) (hkind : token.kind = .name)
    (hspaced : token.spaced = false) : ∃ c ∈ text.head?, isLetter alphabet c = true := by
  cases text with
  | nil =>
      rw [scan] at h
      cases h
      simp at htoken
  | cons first rest =>
      rw [scan] at h
      split_ifs at h with hblank
      · rw [spaced_of_scan rfl h token htoken] at hspaced
        cases hspaced
      · cases hlexeme : lexeme? alphabet first rest with
        | none => simp [hlexeme] at h
        | some found =>
            obtain ⟨kind, count⟩ := found
            rw [hlexeme] at h
            obtain ⟨others, -, h⟩ := exists_of_bind h
            cases h
            obtain rfl : _ = token := by simpa using htoken
            obtain rfl : kind = .name := hkind
            exact ⟨first, rfl, (name_of_lexeme? hlexeme).1⟩

/-- Between two names there is a blank. -/
theorem isChain_of_scan {alphabet : Alphabet}
    (h : scan alphabet position spaced text = .ok tokens) :
    tokens.IsChain fun a b => a.kind = .name → b.kind = .name → b.spaced = true := by
  induction position, spaced, text using scan.induct alphabet generalizing tokens with
  | case1 =>
      rw [scan] at h
      cases h
      exact .nil
  | case2 position spaced first rest hblank ih =>
      rw [scan, if_pos hblank] at h
      exact ih h
  | case3 position spaced first rest hblank hlexeme =>
      rw [scan, if_neg hblank, hlexeme] at h
      cases h
  | case4 position spaced first rest hblank kind count hlexeme ih =>
      rw [scan, if_neg hblank, hlexeme] at h
      obtain ⟨others, hothers, h⟩ := exists_of_bind h
      cases h
      refine List.isChain_cons.mpr ⟨fun next hnext hkind hnextkind => ?_, ih hothers⟩
      obtain rfl : kind = .name := hkind
      by_contra hunspaced
      obtain ⟨c, hc, hletter⟩ := isLetter_of_scan hothers hnext hnextkind
        ((Bool.not_eq_true _).mp hunspaced)
      -- the name would go on with the letter
      have hdrop : rest.drop count = rest.dropWhile (continuesName alphabet) := by
        have hleft : (rest.takeWhile (continuesName alphabet) ++
            rest.dropWhile (continuesName alphabet)).drop
              (rest.takeWhile (continuesName alphabet)).length = _ := List.drop_left
        rwa [List.takeWhile_append_dropWhile, ← (name_of_lexeme? hlexeme).2] at hleft
      have hstop := List.head?_dropWhile_not (continuesName alphabet) rest
      rw [← hdrop, hc] at hstop
      simp [continuesName, hletter] at hstop

end Token

end ExactAlgebra
