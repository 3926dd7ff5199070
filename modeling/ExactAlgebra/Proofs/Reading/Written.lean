import ExactAlgebra.Proofs.Reading.Spell

/-!
# Written forms of terms and factors

Exact infix text of an expression consists of the texts of phrases for its parts: raised and
scaled atoms, exponentials, products with the radicals in front, and sums.
-/

namespace ExactAlgebra

open ExactAlgebra.Expr Reduce Phrase

/-! ## Written terms -/

/-- The text of a base with a rational exponent. -/
def raisedText (base : String) (power : Rat) (simple : Bool) : String :=
  Id.run (Style.exact.raised base power simple)

/-- The terms of the exact infix text. -/
def written (node : Expr) : List Style.Term := Id.run (Style.terms Style.exact node)

theorem toText_eq (node : Expr) : node.toText = Style.join (written node) := rfl

theorem slotsTerms_eq (slots : Slots) :
    Id.run (Style.slotsTerms Style.exact slots) = slots.flatMap fun slot => written slot.2 := by
  induction slots with
  | nil => rfl
  | cons slot rest ih =>
      rw [Style.slotsTerms, List.flatMap_cons, ← ih]
      rfl

theorem argsTexts_eq (args : List Expr) :
    Id.run (Style.argsTexts Style.exact args) = args.map toText := by
  induction args with
  | nil => rfl
  | cons arg rest ih =>
      rw [Style.argsTexts, List.map_cons, ← ih]
      rfl

theorem factorTexts_eq (slots : Slots) : Id.run (Style.factorTexts Style.exact slots) =
    slots.map fun slot => (slot.2.group != .radical, slot.2.toText) := by
  induction slots with
  | nil => rfl
  | cons slot rest ih =>
      rw [Style.factorTexts, List.map_cons, ← ih]
      rfl

theorem written_number (value : Rat) : written (.number value) =
    [⟨true, 0, Ratio.text value⟩] := rfl

theorem written_radical (coeff base power : Rat) : written (.radical coeff base power) =
    [⟨false, power,
      scaledText coeff (raisedText (Ratio.text base) power (decide (0 < base)))⟩] := rfl

theorem written_symbol (coeff : Rat) (name : String) (power : Rat) :
    written (.symbol coeff name power) =
      [⟨false, power, scaledText coeff (raisedText name power true)⟩] := rfl

theorem written_call (coeff : Rat) (name : String) (args : List Expr) (power : Rat) :
    written (.call coeff name args power) =
      [⟨false, power, scaledText coeff (raisedText
        (name ++ Style.bracketed (", ".intercalate (args.map toText))) power true)⟩] := by
  rw [← argsTexts_eq]
  rfl

theorem written_polynomial (coeff power : Rat) (slots : Slots) :
    written (.polynomial coeff power slots) =
      if power = 1 then slots.flatMap fun slot => written slot.2
      else [⟨false, power, scaledText coeff (raisedText
        (Style.join (slots.flatMap fun slot => written slot.2)) power false)⟩] := by
  rw [written, Style.terms, ← slotsTerms_eq]
  split_ifs <;> rfl

theorem written_composite (coeff power : Rat) (slots : Slots) :
    written (.composite coeff power slots) =
      if power = 1 then slots.flatMap fun slot => written slot.2
      else [⟨false, power, scaledText coeff (raisedText
        (Style.join (slots.flatMap fun slot => written slot.2)) power false)⟩] := by
  rw [written, Style.terms, ← slotsTerms_eq]
  split_ifs <;> rfl

theorem written_product (coeff power : Rat) (slots : Slots) :
    written (.product coeff power slots) =
      [⟨false, (Expr.product coeff power slots).degree, scaledText coeff ("*".intercalate
        (((slots.map fun slot => (slot.2.group != .radical, slot.2.toText)).mergeSort
          Style.factorLe).map Prod.snd))⟩] := by
  rw [← factorTexts_eq]
  rfl

/-- A base that is written without brackets before a symbolic exponent. -/
def isSimpleBase : Expr → Bool
  | .number value => decide (0 < value) && Ratio.isInteger value
  | base => !base.isSum

theorem written_exponential (coeff : Rat) (base exponent : Expr) :
    written (.exponential coeff base exponent) =
      [⟨false, 0, scaledText coeff
        ((if isSimpleBase base then base.toText else Style.bracketed base.toText) ++ "^" ++
          if Style.isBare exponent then exponent.toText
          else Style.bracketed exponent.toText)⟩] := by
  cases base <;> rfl

/-! ## Powers -/

variable {read : Reader} {signed : Bool} {level : Int} {e x : Phrase} {node a b result : Expr}
  {p : Rat}

theorem Spells.congr (h : Spells read signed level e a) (hsignature : a.signature = b.signature) :
    Spells read signed level e b := by
  obtain ⟨denoted, hdenotes, hsame⟩ := h
  exact ⟨denoted, hdenotes, hsame.trans hsignature⟩

theorem Spells.mono (h : Spells read signed level e a) {level' : Int} (hlevel : level' ≤ level) :
    Spells read signed level' e a := by
  obtain ⟨denoted, hdenotes, hsame⟩ := h
  exact ⟨denoted, hdenotes.mono hlevel, hsame⟩

theorem Spells.withSign (h : Spells read signed level e a) : Spells read true level e a := by
  obtain ⟨denoted, hdenotes, hsame⟩ := h
  exact ⟨denoted, hdenotes.withSign, hsame⟩

/-- A part with brackets, or without if it needs none. -/
theorem exists_spells_part {simple : Bool} (h : Spells read true 1 e node)
    (hsimple : simple = true → Spells read false 5 e node) :
    ∃ e', Spells read false 5 e' node ∧
      e'.text = if simple then e.text else Style.bracketed e.text := by
  cases simple with
  | true => exact ⟨e, hsimple rfl, rfl⟩
  | false =>
      obtain ⟨denoted, hdenotes, hsame⟩ := h
      exact ⟨.bracket e, ⟨denoted, hdenotes.bracket, hsame⟩, text_bracket e⟩

/-- Powers of expressions with the identity of a base have that of a result. -/
def RaisesTo (base exponent result : Expr) : Prop :=
  ∀ base' exponent' : Expr, Canonical .readable base' → Canonical .readable exponent' →
    base'.signature = base.signature → exponent'.signature = exponent.signature →
    ∃ power, Arithmetic.pow .exact base' exponent' = .ok power ∧
      power.signature = result.signature

theorem Spells.pow (h : Spells read false 5 e a) (h' : Spells read false 5 x b)
    (hresult : RaisesTo a b result) :
    Spells read false 4 (.between raising e x) result := by
  obtain ⟨base, hbase, hsame⟩ := h
  obtain ⟨exponent, hexponent, hsame'⟩ := h'
  obtain ⟨power, hpower, hsignature⟩ := hresult base exponent hbase.canonical
    hexponent.canonical hsame hsame'
  exact ⟨power, hbase.pow hexponent hpower, hsignature⟩

theorem callWith_sqrt (h : Arithmetic.pow .exact a (.number (1 / 2)) = .ok result) :
    Environment.standard.callWith read "sqrt" [a] = .ok result := by
  have hhalf : mkRat 1 2 = 1 / 2 := by norm_num [Rat.mkRat_eq_div]
  have hentry : Environment.standard.functions.get? "sqrt" =
      some ⟨.exactly 1, .builtIn (FunctionTable.rootRule 2)⟩ := rfl
  have hexact : (FunctionTable.rootRule 2).exact .exact [a] = .ok (some result) := by
    change (do return some (← Arithmetic.pow .exact a (.number (mkRat 1 2)))) = _
    rw [hhalf, h]
    rfl
  simp only [Environment.callWith, hentry, evaluateCall_builtIn, hexact]
  rfl

theorem Spells.sqrt (h : Spells read true 1 e a)
    (hresult : RaisesTo a (.number (1 / 2)) result) :
    Spells read signed level (.call "sqrt" [e]) result := by
  obtain ⟨base, hbase, hsame⟩ := h
  obtain ⟨power, hpower, hsignature⟩ := hresult base _ hbase.canonical (.number _) hsame rfl
  have hcount : FunctionTable.standard.accepts "sqrt" 1 = true := by decide +kernel
  exact ⟨power, .call (by decide +kernel) hcount (by simp) (.cons hbase .nil)
    (callWith_sqrt hpower), hsignature⟩

/-- A base with a rational exponent, as infix text writes it. -/
theorem exists_spells_raised {simple : Bool} (h : Spells read true 1 e node)
    (hsimple : simple = true → Spells read false 5 e node)
    (hone : p = 1 → node.signature = result.signature)
    (hresult : p ≠ 1 → RaisesTo node (.number p) result) :
    ∃ e', Spells read false (if p = 1 then 5 else 4) e' result ∧
      e'.text = raisedText e.text p simple := by
  obtain ⟨base, hbase, htext⟩ := exists_spells_part h hsimple
  by_cases hp : p = 1
  · refine ⟨base, ?_, ?_⟩
    · rw [if_pos hp]
      exact hbase.congr (hone hp)
    · simp only [htext, raisedText, Style.exact, Style.infixText, hp, if_true]
      rfl
  rw [if_neg hp]
  have hpower := hresult hp
  by_cases hhalf : p = 1 / 2
  · subst hhalf
    refine ⟨.call "sqrt" [e], h.sqrt hpower, ?_⟩
    simp only [text_call, List.map_cons, List.map_nil, String.intercalate_singleton, raisedText,
      Style.exact, Style.infixText, hp, if_false, if_true]
    rfl
  by_cases hnatural : p.den = 1 ∧ 0 < p
  · obtain ⟨hden, hpos⟩ := hnatural
    have hexponent : Spells read false 5 (rational p) (.number p) :=
      ⟨_, denotes_natural hden hpos.le, rfl⟩
    refine ⟨_, hbase.pow hexponent hpower, ?_⟩
    simp only [text_between, text_rational, htext, raisedText, Style.exact, Style.infixText, hp,
      hhalf, hden, hpos, and_self, if_false, if_true]
    rfl
  · have hexponent : Spells read false 5 (.bracket (rational p)) (.number p) :=
      ⟨_, ((denotes_rational p).withSign.mono (show (1 : Int) ≤ 2 by omega)).bracket, rfl⟩
    refine ⟨_, hbase.pow hexponent hpower, ?_⟩
    simp only [text_between, text_bracket, text_rational, htext, raisedText, Style.exact,
      Style.infixText, hp, hhalf, hnatural, if_false]
    rfl

/-! ## Bases and exponents -/

theorem content_withPower (h : a.content = b.content) (p : Rat) :
    (a.withPower p).content = (b.withPower p).content := by
  have hgroup := group_eq_of_content h
  cases a <;> cases b <;> simp only [group, reduceCtorEq] at hgroup <;>
    simp_all [content, withPower, Key.tuple]

theorem signature_withPower (h : a.signature = b.signature) (p : Rat) :
    (a.withPower p).signature = (b.withPower p).signature := by
  have hcoeff : ∀ node : Expr, (node.withPower p).coeff = node.coeff := fun node => by
    cases node <;> rfl
  rw [signature, signature, hcoeff, hcoeff, coeff_eq_of_signature h,
    content_withPower (content_eq_of_signature h)]

theorem isPlain_of_signature (h : a.isPlain = true) (hsignature : a.signature = b.signature) :
    b.isPlain = true := by
  have hcontent := content_eq_of_signature hsignature
  rw [isPlain_iff] at h ⊢
  rwa [← group_eq_of_content hcontent, ← isSum_eq_of_content hcontent,
    ← coeff_eq_of_signature hsignature, ← degreePower_eq_of_content hcontent]

/-- A plain base to an exponent that it carries. -/
theorem raisesTo_of_isPlain (h : a.isPlain = true) (hp : Carries .exact a p) :
    RaisesTo a (.number p) (a.withPower p) := by
  intro base exponent _ _ hbase hexponent
  obtain rfl : .number p = exponent := eq_of_isLeaf rfl hexponent.symm
  have hcontent := content_eq_of_signature hbase
  refine ⟨base.withPower p, Arithmetic.pow_of_isPlain (isPlain_of_signature h hbase.symm) ?_,
    signature_withPower hbase p⟩
  constructor
  · exact hp.ne_zero
  · rw [isNamed_eq _ hbase]
    exact hp.symbol
  · rw [isSum_eq_of_content hcontent]
    exact hp.sum

/-- The base of a radical to its exponent. -/
theorem raisesTo_of_isRadical {base : Rat} (hseparate : IsSeparate [(base, p)])
    (hsmall : IsSmall [(base, p)]) :
    RaisesTo (.number base) (.number p) (.radical 1 base p) := by
  intro base' exponent _ _ hbase hexponent
  obtain rfl : .number base = base' := eq_of_isLeaf rfl hbase.symm
  obtain rfl : .number p = exponent := eq_of_isLeaf rfl hexponent.symm
  exact ⟨_, Arithmetic.pow_of_isRadical rfl hseparate hsmall, rfl⟩

/-- A plain base to an exponent that is no constant. -/
theorem raisesTo_symbolic (h : a.isPlain = true) (hb : b.isNumber = false) :
    RaisesTo a b (.exponential 1 a b) := by
  intro base exponent _ _ hbase hexponent
  refine ⟨_, Arithmetic.pow_symbolic (isPlain_of_signature h hbase.symm) ?_,
    signature_exponential hbase hexponent⟩
  rwa [isNumber_eq_of_content (content_eq_of_signature hexponent)]

/-- A reduced constant base to an exponent without constant term. -/
theorem raisesTo_constantBase {base : Rat} (hzero : base ≠ 0) (hone : base ≠ 1)
    (hreduced : IsReduced base) (hconstant : constantTerm b = 0) (hb : b.isNumber = false)
    (hcanonical : Canonical .readable b) :
    RaisesTo (.number base) b (.exponential 1 (.number base) b) := by
  intro base' exponent _ hexponent hbase hsame
  obtain rfl : .number base = base' := eq_of_isLeaf rfl hbase.symm
  refine ⟨_, Arithmetic.pow_constantBase hzero hone (hreduced exponent)
    (constantTerm_eq_zero hcanonical hexponent hsame.symm hconstant) ?_,
    signature_exponential rfl hsame⟩
  rwa [isNumber_eq_of_content (content_eq_of_signature hsame)]

/-! ## Terms -/

variable {c : Rat} {factors : List Phrase} {values : List Expr} {slots slots' : Slots}
  {text : String}

theorem signature_negate (hsum : a.isExpandedSum = false) (h : a.signature = b.signature) :
    (Arithmetic.negate a).signature = (Arithmetic.negate b).signature := by
  have hcontent := content_eq_of_signature h
  have hsum' : b.isExpandedSum = false := by rwa [← isExpandedSum_eq_of_content hcontent]
  rw [Arithmetic.negate, Arithmetic.negate, scale_of_not_isExpandedSum (by norm_num) hsum,
    scale_of_not_isExpandedSum (by norm_num) hsum', signature, signature, coeff_withCoeff,
    coeff_withCoeff, content_withCoeff, content_withCoeff, hcontent, coeff_eq_of_signature h]

theorem Shows.congr (h : Shows read text a) (hsum : a.isExpandedSum = false)
    (hsame : a.signature = b.signature) : Shows read text b := by
  cases h with
  | plain h => exact .plain (h.congr hsame)
  | signed h h' htext =>
      exact .signed (h.congr hsame) (h'.congr (signature_negate hsum hsame)) htext

/-- A product of spelled factors with a coefficient is a term. -/
theorem shows_product (hc : c ≠ 0) (hne : factors ≠ [])
    (hfactors : List.Forall₂ (Denotes read false 4) factors values)
    (hpart : IsProductPart .separate (keyed values)) (horder : RadicalsFirst values) :
    Shows read (scaledText c ("*".intercalate (factors.map Phrase.text)))
      (collapse (.product c 1 (keyed values))) := by
  obtain ⟨e, slots, hperm, hdenotes, htext⟩ :=
    exists_denotes_term hc hne hfactors hpart horder
  rw [← htext]
  by_cases hsign : c < 0
  · obtain ⟨e', slots', hperm', hdenotes', htext'⟩ := exists_denotes_term
      (neg_ne_zero.mpr hc) hne hfactors hpart horder
    rw [decide_eq_true hsign] at hdenotes
    rw [decide_eq_false (by linarith : ¬ -c < 0)] at hdenotes'
    refine .signed ⟨_, hdenotes, signature_collapse hperm⟩ ⟨_, hdenotes', ?_⟩ ?_
    · rw [Arithmetic.negate, scale_collapse (by norm_num) hc hpart, mul_neg_one]
      exact signature_collapse hperm'
    · rw [htext, htext', scaledText_neg hsign]
  · rw [decide_eq_false hsign] at hdenotes
    exact .plain ⟨_, hdenotes, signature_collapse hperm⟩

end ExactAlgebra
