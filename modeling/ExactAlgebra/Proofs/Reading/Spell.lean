import ExactAlgebra.Proofs.Canonical.Coefficient
import ExactAlgebra.Proofs.Canonical.Plain
import ExactAlgebra.Proofs.Reading.Denoted

/-!
# Phrases for expressions

Constants, powers, products and sums of spelled parts are spelled by the phrases that infix
text writes for them.
-/

namespace ExactAlgebra

open ExactAlgebra.Expr Reduce Phrase

/-- The infix style with exact fractions. -/
def Style.exact : Style Id := Style.infixText false fun a => pure (Ratio.text a)

/-! ## Denotation -/

/-- A well-formed phrase and the expression that it denotes. -/
structure Denotes (read : Reader) (signed : Bool) (level : Int) (e : Phrase) (node : Expr) :
    Prop where
  formed : Formed .standard signed level e
  value : e.value .standard read = .ok node

/-- A phrase that denotes an expression up to the order of children. -/
def Spells (read : Reader) (signed : Bool) (level : Int) (e : Phrase) (node : Expr) : Prop :=
  ∃ denoted, Denotes read signed level e denoted ∧ denoted.signature = node.signature

variable {read : Reader} {signed : Bool} {level level' : Int} {e e' : Phrase} {node node' : Expr}

namespace Denotes

theorem mono (h : Denotes read signed level e node) (hlevel : level' ≤ level) :
    Denotes read signed level' e node :=
  ⟨h.formed.mono hlevel, h.value⟩

theorem withSign (h : Denotes read signed level e node) : Denotes read true level e node := by
  cases signed with
  | false => exact ⟨h.formed.withSign, h.value⟩
  | true => exact h

theorem number (value : Nat) : Denotes read signed level (.number value) (.number value) :=
  ⟨.number value, rfl⟩

theorem bracket (h : Denotes read true 1 e node) : Denotes read signed level (.bracket e) node :=
  ⟨.bracket h.formed, h.value⟩

theorem negate (h : Denotes read false 4 e node) :
    Denotes read true 3 (.before negation e) (Arithmetic.negate node) := by
  refine ⟨.negate h.formed le_rfl, ?_⟩
  rw [Phrase.value, h.value]
  rfl

theorem between (operator : Operator) (left right : Int) {result : Expr}
    (hoperator : operator ∈ infixes) (h : Denotes read signed left e node)
    (h' : Denotes read false right e' node')
    (hleft : operator.precedence < left ∨
      (operator.precedence = left ∧ operator.associativity = .left))
    (hright : operator.precedence < right)
    (hresult : Environment.standard.operateWith read operator.operation [node, node'] =
      .ok result) :
    Denotes read signed operator.precedence (.between operator e e') result := by
  refine ⟨.between hoperator h.formed h'.formed hleft hright le_rfl, ?_⟩
  rw [Phrase.value, h.value, h'.value]
  exact hresult

variable {result : Expr}

theorem add (h : Denotes read signed 1 e node) (h' : Denotes read false 2 e' node')
    (hresult : Arithmetic.add node node' = .ok result) :
    Denotes read signed 1 (.between adding e e') result :=
  between adding 1 2 (by decide) h h' (.inr ⟨rfl, rfl⟩) (by decide) hresult

theorem subtract (h : Denotes read signed 1 e node) (h' : Denotes read false 2 e' node')
    (hresult : Arithmetic.subtract node node' = .ok result) :
    Denotes read signed 1 (.between subtracting e e') result :=
  between subtracting 1 2 (by decide) h h' (.inr ⟨rfl, rfl⟩) (by decide) hresult

theorem multiply (h : Denotes read signed 2 e node) (h' : Denotes read false 3 e' node')
    (hresult : Arithmetic.multiply .exact node node' = .ok result) :
    Denotes read signed 2 (.between multiplying e e') result :=
  between multiplying 2 3 (by decide) h h' (.inr ⟨rfl, rfl⟩) (by decide) hresult

theorem divide (h : Denotes read signed 2 e node) (h' : Denotes read false 3 e' node')
    (hresult : Arithmetic.divide .exact node node' = .ok result) :
    Denotes read signed 2 (.between dividing e e') result :=
  between dividing 2 3 (by decide) h h' (.inr ⟨rfl, rfl⟩) (by decide) hresult

theorem pow (h : Denotes read signed 5 e node) (h' : Denotes read false 5 e' node')
    (hresult : Arithmetic.pow .exact node node' = .ok result) :
    Denotes read signed 4 (.between raising e e') result :=
  between raising 5 5 (by decide) h h' (.inl (by decide)) (by decide) hresult

theorem args {args : List Phrase} {values : List Expr}
    (h : List.Forall₂ (Denotes read true 1) args values) :
    (∀ arg ∈ args, Formed .standard true 1 arg) ∧
      argsValues .standard read args = .ok values := by
  induction h with
  | nil => exact ⟨by simp, rfl⟩
  | cons hfirst _ ih =>
      refine ⟨List.forall_mem_cons.mpr ⟨hfirst.formed, ih.1⟩, ?_⟩
      rw [argsValues, hfirst.value, ih.2]
      rfl

theorem call {function : String} {args : List Phrase} {values : List Expr} {result : Expr}
    (hfunction : FunctionTable.standard.contains function = true)
    (hcount : FunctionTable.standard.accepts function args.length = true) (hne : args ≠ [])
    (hargs : List.Forall₂ (Denotes read true 1) args values)
    (hresult : Environment.standard.callWith read function values = .ok result) :
    Denotes read signed level (.call function args) result := by
  obtain ⟨hformed, hvalues⟩ := Denotes.args hargs
  refine ⟨.call (isName_of_contains hfunction) hfunction hcount hne hformed, ?_⟩
  rw [Phrase.value, hvalues]
  exact hresult

/-- What a phrase denotes is readable. -/
theorem canonical (h : Denotes read signed level e node) : Canonical .readable node :=
  Environment.yields_readWith node ((h.formed.readWith read).trans h.value)

end Denotes

/-! ## Constants -/

/-- The phrase of an integer. -/
def integer (n : Int) : Phrase :=
  if n < 0 then .before negation (.number n.natAbs) else .number n.natAbs

/-- The phrase of a rational. -/
def rational (a : Rat) : Phrase :=
  if a.den = 1 then integer a.num else .between dividing (integer a.num) (.number a.den)

@[simp] theorem text_integer (n : Int) : (integer n).text = toString n := by
  unfold integer
  split_ifs with hsign
  · obtain ⟨k, rfl⟩ : ∃ k : Nat, n = -((k + 1 : Nat) : Int) := ⟨n.natAbs - 1, by omega⟩
    rw [text_before, text_number, Int.natAbs_neg, Int.natAbs_natCast]
    rfl
  · obtain ⟨k, rfl⟩ := Int.eq_ofNat_of_zero_le (not_lt.mp hsign)
    rw [text_number, Int.natAbs_natCast]
    rfl

@[simp] theorem text_rational (a : Rat) : (rational a).text = Ratio.text a := by
  unfold rational Ratio.text
  split_ifs
  · exact text_integer _
  · rw [text_between, text_integer, text_number]
    rfl

theorem denotes_natural {a : Rat} (hden : a.den = 1) (ha : 0 ≤ a) :
    Denotes read signed level (rational a) (.number a) := by
  have hnum : 0 ≤ a.num := Rat.num_nonneg.mpr ha
  have hvalue : (a.num.natAbs : Rat) = a := by
    rw [← Int.cast_natCast, Int.natCast_natAbs, abs_of_nonneg hnum]
    exact (Rat.den_eq_one_iff a).mp hden
  have hphrase : rational a = .number a.num.natAbs := by
    rw [rational, if_pos hden, integer, if_neg (not_lt.mpr hnum)]
  have hdenotes : Denotes read signed level (.number a.num.natAbs) _ := .number a.num.natAbs
  rwa [hvalue, ← hphrase] at hdenotes

theorem denotes_integer (n : Int) :
    Denotes read (decide (n < 0)) 3 (integer n) (.number n) := by
  unfold integer
  split_ifs with hsign
  · rw [decide_eq_true hsign]
    have hvalue : Arithmetic.negate (.number (n.natAbs : Rat)) = .number n := by
      rw [Arithmetic.negate, scale_number]
      congr 1
      have hcast : (n : Rat) = -((n.natAbs : Int) : Rat) := by
        rw [Int.natCast_natAbs, abs_of_neg hsign]
        simp
      rw [hcast]
      simp
    rw [← hvalue]
    exact (Denotes.number _).negate
  · have hvalue : (n.natAbs : Rat) = n := by
      rw [← Int.cast_natCast, Int.natCast_natAbs, abs_of_nonneg (not_lt.mp hsign)]
    rw [← hvalue]
    exact Denotes.number _

theorem denotes_rational (a : Rat) :
    Denotes read (decide (a < 0)) 2 (rational a) (.number a) := by
  have hsign : decide (a < 0) = decide (a.num < 0) := by simp
  have hnum : Denotes read (decide (a < 0)) 3 (integer a.num) (.number a.num) :=
    hsign ▸ denotes_integer a.num
  unfold rational
  split_ifs with hden
  · have hvalue : (a.num : Rat) = a := (Rat.den_eq_one_iff a).mp hden
    rw [hvalue] at hnum
    exact hnum.mono (by omega)
  · have hden : (a.den : Rat) ≠ 0 := by simp
    refine (hnum.mono (by omega)).divide (.number a.den) ?_
    have hdivide := Arithmetic.divide_number .exact (.number a.num) hden
    rw [scale_number, ← div_eq_mul_inv, Rat.num_div_den] at hdivide
    exact hdivide

/-! ## Products -/

/-- A phrase times some others, one after the other. -/
def times (start : Phrase) (factors : List Phrase) : Phrase :=
  factors.foldl (.between multiplying) start

theorem text_times (start : Phrase) (factors : List Phrase) :
    (times start factors).text = "*".intercalate (start.text :: factors.map text) := by
  induction factors generalizing start with
  | nil => rfl
  | cons factor rest ih =>
      rw [times, List.foldl_cons, ← times, ih, text_between]
      rfl

variable {c : Rat} {factors : List Phrase} {values : List Expr} {slots : Slots}

/-- Radicals stand in front. -/
def RadicalsFirst (values : List Expr) : Prop :=
  values.Pairwise fun a b => b.group = .radical → a.group = .radical

/-- Factors that are written one after the other join a product. -/
theorem exists_denotes_times (hc : c ≠ 0) {start : Phrase}
    (hstart : Denotes read signed 2 start (collapse (.product c 1 slots)))
    (hfactors : List.Forall₂ (Denotes read false 3) factors values)
    (hpart : IsProductPart .separate (slots ++ keyed values))
    (horder : RadicalsFirst values)
    (hbefore : ∀ value ∈ values, value.group = .radical →
      ∀ slot ∈ slots, slot.2.group = .radical) :
    ∃ slots', slots'.Perm (slots ++ keyed values) ∧
      Denotes read signed 2 (times start factors) (collapse (.product c 1 slots')) := by
  induction hfactors generalizing start slots with
  | nil => exact ⟨slots, by simp [keyed], hstart⟩
  | @cons factor value factors values hfactor _ ih =>
      have hsplit : slots ++ keyed (value :: values) =
          slots ++ keyed [value] ++ keyed values := by simp [keyed]
      rw [hsplit] at hpart ⊢
      obtain ⟨hvalue, hbefore⟩ := List.forall_mem_cons.mp hbefore
      obtain ⟨hfirst, horder⟩ := List.pairwise_cons.mp horder
      obtain ⟨slots', hperm, hmultiply⟩ := Arithmetic.exists_multiply_factor
        (show Mode.exact.numeric = false from rfl) hc
        (hpart.sublist Discipline.separate_hereditary (List.sublist_append_left _ _)) hvalue
      obtain ⟨slots'', hperm', hdenotes⟩ := ih (hstart.multiply hfactor hmultiply)
        (separate_perm hpart (hperm.symm.append_right _)) horder fun other hother hradical => by
          intro slot hslot
          rcases List.mem_append.mp (hperm.subset hslot) with hold | hnew
          · exact hbefore other hother hradical slot hold
          · obtain rfl : slot = (value.multiplicativeKey, value) := by simpa [keyed] using hnew
            exact hfirst other hother hradical
      exact ⟨slots'', hperm'.trans (hperm.append_right _), hdenotes⟩

/-! ## Coefficients -/

/-- The text of an integral multiple. -/
def numerator (n : Int) (body : String) : String :=
  if n = 1 then body else if n = -1 then "-" ++ body else toString n ++ "*" ++ body

/-- The text of a rational multiple. -/
def scaledText (c : Rat) (body : String) : String := Id.run (Style.exact.scaled c body)

theorem scaledText_eq (c : Rat) (body : String) : scaledText c body =
    if c.den = 1 then numerator c.num body
    else numerator c.num body ++ "/" ++ toString c.den := by
  simp only [scaledText, Style.exact, Style.infixText, Bool.false_or, beq_iff_eq, numerator]
  by_cases hden : c.den = 1
  · have hnum : (c.num : Rat) = c := (Rat.den_eq_one_iff c).mp hden
    have hone : c = 1 ↔ c.num = 1 := by rw [← hnum]; norm_cast
    have hminus : c = -1 ↔ c.num = -1 := by rw [← hnum]; norm_cast
    simp only [hone, hminus, hden, if_true, Ratio.text]
    split_ifs <;> rfl
  · have hone : c ≠ 1 := by
      rintro rfl
      exact hden rfl
    have hminus : c ≠ -1 := by
      rintro rfl
      exact hden rfl
    simp only [hone, hminus, hden, if_false]
    split_ifs <;> simp only [String.append_assoc] <;> rfl

theorem numerator_neg {n : Int} (hn : n < 0) (body : String) :
    numerator n body = "-" ++ numerator (-n) body := by
  obtain ⟨k, rfl⟩ : ∃ k : Nat, n = -((k + 1 : Nat) : Int) := ⟨n.natAbs - 1, by omega⟩
  have htext : toString (-((k + 1 : Nat) : Int)) = "-" ++ toString ((k + 1 : Nat) : Int) := rfl
  have hone : ¬ -((k + 1 : Nat) : Int) = 1 := by omega
  have hminus : ¬ ((k + 1 : Nat) : Int) = -1 := by omega
  simp only [numerator, hone, if_false, neg_neg, neg_inj, hminus, htext]
  split_ifs <;> simp only [String.append_assoc]

/-- A negative coefficient is that of the negated term with a sign in front. -/
theorem scaledText_neg (hc : c < 0) (body : String) :
    scaledText c body = "-" ++ scaledText (-c) body := by
  rw [scaledText_eq, scaledText_eq, Rat.neg_den, Rat.neg_num,
    numerator_neg (Rat.num_neg.mpr hc)]
  split_ifs
  · rfl
  · simp only [String.append_assoc]

theorem intercalate_append (separator front text : String) (texts : List String) :
    separator.intercalate ((front ++ text) :: texts) =
      front ++ separator.intercalate (text :: texts) := by
  cases texts with
  | nil => simp only [String.intercalate_singleton]
  | cons => simp only [String.intercalate_cons_cons, String.append_assoc]

theorem exists_denotes_numerator {n : Int} (hn : n ≠ 0) (hne : factors ≠ [])
    (hfactors : List.Forall₂ (Denotes read false 4) factors values)
    (hpart : IsProductPart .separate (keyed values)) (horder : RadicalsFirst values) :
    ∃ e slots, slots.Perm (keyed values) ∧
      Denotes read (decide (n < 0)) 2 e (collapse (.product n 1 slots)) ∧
      e.text = numerator n ("*".intercalate (factors.map text)) := by
  have hn' : (n : Rat) ≠ 0 := by exact_mod_cast hn
  have hlower : List.Forall₂ (Denotes read false 3) factors values :=
    hfactors.imp fun _ _ h => h.mono (by omega)
  cases hfactors with
  | nil => exact absurd rfl hne
  | @cons factor value rest others hfactor _ =>
      obtain ⟨-, hrest⟩ := List.forall₂_cons.mp hlower
      obtain ⟨hfirst, hothers⟩ := List.pairwise_cons.mp horder
      -- with a unit in front the first factor starts the product
      have hjoin (start : Phrase)
          (hstart : Denotes read (decide (n < 0)) 2 start
            (collapse (.product n 1 (keyed [value])))) :
          ∃ slots, slots.Perm (keyed (value :: others)) ∧
            Denotes read (decide (n < 0)) 2 (times start rest) (collapse (.product n 1 slots)) :=
        exists_denotes_times hn' hstart hrest hpart hothers
          fun other hother hradical slot hslot => by
            obtain rfl : slot = (value.multiplicativeKey, value) := by simpa [keyed] using hslot
            exact hfirst other hother hradical
      by_cases hone : n = 1
      · subst hone
        have hstart : collapse (.product 1 1 (keyed [value])) = value := scale_one value
        obtain ⟨slots, hperm, hdenotes⟩ := hjoin factor (by
          rw [Int.cast_one, hstart]
          exact hfactor.mono (by omega))
        exact ⟨_, slots, hperm, hdenotes, by simp [text_times, numerator]⟩
      by_cases hminus : n = -1
      · subst hminus
        obtain ⟨slots, hperm, hdenotes⟩ := hjoin (.before negation factor)
          (hfactor.negate.mono (by omega))
        refine ⟨_, slots, hperm, hdenotes, ?_⟩
        rw [text_times, text_before, intercalate_append]
        rfl
      · have hstart : Denotes read (decide (n < 0)) 2 (integer n) (collapse (.product n 1 [])) :=
          (denotes_integer n).mono (by omega)
        obtain ⟨slots, hperm, hdenotes⟩ :=
          exists_denotes_times hn' hstart hlower hpart horder (by simp)
        refine ⟨_, slots, hperm, hdenotes, ?_⟩
        rw [text_times, text_integer, numerator, if_neg hone, if_neg hminus, List.map_cons,
          String.intercalate_cons_cons]

/-- A product of spelled factors with a coefficient. -/
theorem exists_denotes_term (hc : c ≠ 0) (hne : factors ≠ [])
    (hfactors : List.Forall₂ (Denotes read false 4) factors values)
    (hpart : IsProductPart .separate (keyed values)) (horder : RadicalsFirst values) :
    ∃ e slots, slots.Perm (keyed values) ∧
      Denotes read (decide (c < 0)) 2 e (collapse (.product c 1 slots)) ∧
      e.text = scaledText c ("*".intercalate (factors.map text)) := by
  have hnum : c.num ≠ 0 := by simpa using hc
  have hsign : decide (c.num < 0) = decide (c < 0) := by simp
  obtain ⟨e, slots, hperm, hdenotes, htext⟩ :=
    exists_denotes_numerator hnum hne hfactors hpart horder
  rw [hsign] at hdenotes
  rw [scaledText_eq]
  split_ifs with hden
  · have hvalue : (c.num : Rat) = c := (Rat.den_eq_one_iff c).mp hden
    rw [hvalue] at hdenotes
    exact ⟨e, slots, hperm, hdenotes, htext⟩
  · have hden : (c.den : Rat) ≠ 0 := by simp
    have hdivide := Arithmetic.divide_number .exact (collapse (.product c.num 1 slots)) hden
    rw [scale_collapse (inv_ne_zero hden) (by exact_mod_cast hnum)
      (separate_perm hpart hperm.symm), ← div_eq_mul_inv, Rat.num_div_den] at hdivide
    refine ⟨_, slots, hperm, hdenotes.divide (.number c.den) hdivide, ?_⟩
    rw [text_between, htext, text_number]
    rfl

/-! ## Terms of sums -/

/-- A text that stands for a term of a sum, with a sign in front or without. -/
inductive Shows (read : Reader) : String → Expr → Prop
  | plain {e : Phrase} {node : Expr} (h : Spells read false 2 e node) : Shows read e.text node
  | signed {e e' : Phrase} {node : Expr} (h : Spells read true 2 e node)
      (h' : Spells read false 2 e' (Arithmetic.negate node)) (htext : e.text = "-" ++ e'.text) :
      Shows read e.text node

theorem ratio_text_neg {a : Rat} (ha : a < 0) : Ratio.text a = "-" ++ Ratio.text (-a) := by
  obtain ⟨k, hk⟩ : ∃ k : Nat, a.num = -((k + 1 : Nat) : Int) :=
    ⟨a.num.natAbs - 1, by have := Rat.num_neg.mpr ha; omega⟩
  have htext : toString a.num = "-" ++ toString (-a.num) := by
    rw [hk, neg_neg]
    rfl
  rw [Ratio.text, Ratio.text, Rat.neg_den, Rat.neg_num, htext]
  split_ifs
  · rfl
  · simp only [String.append_assoc]

theorem shows_rational (a : Rat) : Shows read (Ratio.text a) (.number a) := by
  rw [← text_rational]
  by_cases hsign : a < 0
  · have hdenotes : Denotes read _ _ _ _ := denotes_rational a
    have hnegated : Denotes read _ _ _ _ := denotes_rational (-a)
    rw [decide_eq_true hsign] at hdenotes
    rw [decide_eq_false (by linarith : ¬ -a < 0)] at hnegated
    refine .signed ⟨_, hdenotes, rfl⟩ ⟨_, hnegated, ?_⟩ ?_
    · rw [Arithmetic.negate, scale_number, mul_neg_one]
    · rw [text_rational, text_rational, ratio_text_neg hsign]
  · have hdenotes : Denotes read _ _ _ _ := denotes_rational a
    rw [decide_eq_false hsign] at hdenotes
    exact .plain ⟨_, hdenotes, rfl⟩

/-- One more term of a sum. -/
theorem exists_denotes_joinTerm {text : String} {total : Expr}
    (h : Denotes read true 1 e total) (hterm : Shows read text node)
    (hnode : Canonical .readable node) :
    ∃ e' total', Denotes read true 1 e' total' ∧ total'.linear = total.linear + node.linear ∧
      e'.text = Style.joinTerm e.text text := by
  have hempty : e.text.isEmpty = false := by simpa [String.isEmpty_iff] using h.formed.text_ne
  have hrules := Discipline.readable_admissible
  cases hterm with
  | plain hterm =>
      obtain ⟨value, hvalue, hsignature⟩ := hterm
      obtain ⟨total', hadd, -, hlinear⟩ := Arithmetic.totals_add hrules h.canonical hvalue.canonical
      refine ⟨_, total', h.add hvalue hadd, ?_, ?_⟩
      · rw [hlinear, hvalue.canonical.linear_eq_of_signature hnode hsignature]
      · simp only [text_between, Style.joinTerm, hempty, Bool.false_or, beq_iff_eq,
          if_neg hvalue.formed.front?_ne]
        rfl
  | @signed first second _ _ hterm htext =>
      obtain ⟨value, hvalue, hsignature⟩ := hterm
      obtain ⟨total', hsubtract, -, hlinear⟩ :=
        Arithmetic.totals_subtract hrules h.canonical hvalue.canonical
      refine ⟨_, total', h.subtract hvalue hsubtract, ?_, ?_⟩
      · rw [hlinear, hvalue.canonical.linear_eq_of_signature
          (Arithmetic.canonical_negate hrules hnode) hsignature, Arithmetic.linear_negate,
          sub_neg_eq_add]
      · have hfront : ("-" ++ second.text).front? = some '-' := by
          rw [String.front?_eq, String.toList_append]
          rfl
        rw [htext]
        simp only [text_between, Style.joinTerm, hempty, Bool.false_or, beq_iff_eq, hfront,
          if_true, String.append_assoc]
        rfl

/-- The terms of a sum one after the other. -/
theorem exists_denotes_terms {texts : List String} {nodes : List Expr} {total : Expr}
    (h : Denotes read true 1 e total) (hterms : List.Forall₂ (Shows read) texts nodes)
    (hnodes : ∀ node ∈ nodes, Canonical .readable node) :
    ∃ e' total', Denotes read true 1 e' total' ∧
      total'.linear = total.linear + (nodes.map linear).sum ∧
      e'.text = texts.foldl Style.joinTerm e.text := by
  induction hterms generalizing e total with
  | nil => exact ⟨e, total, h, by simp, rfl⟩
  | @cons text node texts nodes hterm _ ih =>
      obtain ⟨hnode, hnodes⟩ := List.forall_mem_cons.mp hnodes
      obtain ⟨e', total', hdenotes, hlinear, htext⟩ := exists_denotes_joinTerm h hterm hnode
      obtain ⟨e'', total'', hdenotes', hlinear', htext'⟩ := ih hdenotes hnodes
      refine ⟨e'', total'', hdenotes', ?_, ?_⟩
      · rw [hlinear', hlinear, List.map_cons, List.sum_cons, add_assoc]
      · rw [htext', htext, List.foldl_cons]

theorem Shows.exists_spells {text : String} (h : Shows read text node) :
    ∃ e, Spells read true 2 e node ∧ e.text = text := by
  cases h with
  | @plain e _ h =>
      obtain ⟨value, hvalue, hsignature⟩ := h
      exact ⟨e, ⟨value, hvalue.withSign, hsignature⟩, rfl⟩
  | @signed e _ _ h => exact ⟨e, h, rfl⟩

/-- A sum whose terms are shown is spelled by the terms, with signs between them. -/
theorem exists_spells_join {terms : List Style.Term} {nodes : List Expr}
    (hnode : Canonical .readable node)
    (hterms : List.Forall₂ (Shows read) (terms.map Style.Term.text) nodes)
    (hnodes : ∀ node ∈ nodes, Canonical .readable node) (hne : nodes ≠ [])
    (hlinear : (nodes.map linear).sum = node.linear) :
    ∃ e, Spells read true 1 e node ∧ e.text = Style.join terms := by
  have hsorted : ((terms.mergeSort Style.Term.le).map Style.Term.text).Perm
      (terms.map Style.Term.text) := (List.mergeSort_perm _ _).map _
  obtain ⟨nodes', hshown, hperm⟩ := List.perm_comp_forall₂ hsorted hterms
  rw [← (hperm.map linear).sum_eq] at hlinear
  replace hnodes : ∀ node ∈ nodes', Canonical .readable node :=
    fun node h => hnodes node (hperm.subset h)
  rw [Style.join]
  generalize (terms.mergeSort Style.Term.le).map Style.Term.text = texts at hshown
  cases hshown with
  | nil => exact absurd hperm.symm.eq_nil hne
  | @cons text first texts rest hfirst hrest =>
      obtain ⟨hcanonical, hothers⟩ := List.forall_mem_cons.mp hnodes
      obtain ⟨start, ⟨value, hvalue, hsignature⟩, htext⟩ := hfirst.exists_spells
      obtain ⟨e, total, hdenotes, htotal, hjoined⟩ :=
        exists_denotes_terms (hvalue.mono (show (1 : Int) ≤ 2 by omega)) hrest hothers
      refine ⟨e, ⟨total, hdenotes, ?_⟩, ?_⟩
      · refine hdenotes.canonical.signature_eq_of_linear (fun _ h => h) hnode ?_
        rw [htotal, ← hlinear, List.map_cons, List.sum_cons,
          hvalue.canonical.linear_eq_of_signature hcanonical hsignature]
      · rw [hjoined, htext, List.foldl_cons]
        rfl

end ExactAlgebra
