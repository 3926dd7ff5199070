import ExactAlgebra.Proofs.Reading.Faults

/-!
# Derivations of the standard notation

The grammar of the standard notation has a nonterminal for each level of precedence: sums of
terms, products of signed powers, and powers of operands with operators after them.  A product may
be left out before a power without a sign.  The trees that the grammar derives are those that the
precedence of the standard operators allows.
-/

namespace ExactAlgebra

open Postfix Phrase SyntaxTree

/-! ## The grammar -/

/-- The levels of the grammar. -/
inductive Nonterminal where
  | expr
  | term
  | unary
  | power
  | suffixed
  | primary

namespace Nonterminal

def sums : List Operator := [adding, subtracting]
def products : List Operator := [multiplying, dividing]
def signs : List Operator := [⟨"+", .identity, 3, .right, .before⟩, negation]
def powers : List Operator := [raising, ⟨"**", .pow, 4, .right, .between⟩]
def postfixes : List Operator := [
  ⟨"!", .factorial, 5, .left, .after⟩,
  ⟨"!!", .doubleFactorial, 5, .left, .after⟩,
  ⟨"%", .percent, 5, .left, .after⟩]

/-- The operators between operands. -/
def betweens : List Operator := sums ++ products ++ powers

end Nonterminal

open Nonterminal

variable {α : Type}

/-- The derivation trees of a nonterminal.  Sums and products group to the left, and powers to
the right. -/
inductive Derives (scope : Grammar α) : Nonterminal → SyntaxTree α → Prop
  | term {tree : SyntaxTree α} (h : Derives scope .term tree) : Derives scope .expr tree
  | sum {operator : Operator} {left right : SyntaxTree α} (hoperator : operator ∈ sums)
      (hleft : Derives scope .expr left) (hright : Derives scope .term right) :
      Derives scope .expr (.between operator true left right)
  | unary {tree : SyntaxTree α} (h : Derives scope .unary tree) : Derives scope .term tree
  | product {operator : Operator} {left right : SyntaxTree α} (hoperator : operator ∈ products)
      (hleft : Derives scope .term left) (hright : Derives scope .unary right) :
      Derives scope .term (.between operator true left right)
  | implicit {left right : SyntaxTree α} (hleft : Derives scope .term left)
      (hright : Derives scope .power right) :
      Derives scope .term (.between multiplying false left right)
  | power {tree : SyntaxTree α} (h : Derives scope .power tree) : Derives scope .unary tree
  | sign {operator : Operator} {body : SyntaxTree α} (hoperator : operator ∈ signs)
      (hbody : Derives scope .unary body) : Derives scope .unary (.before operator body)
  | suffixed {tree : SyntaxTree α} (h : Derives scope .suffixed tree) : Derives scope .power tree
  | raise {operator : Operator} {left right : SyntaxTree α} (hoperator : operator ∈ powers)
      (hleft : Derives scope .suffixed left) (hright : Derives scope .unary right) :
      Derives scope .power (.between operator true left right)
  | primary {tree : SyntaxTree α} (h : Derives scope .primary tree) :
      Derives scope .suffixed tree
  | suffix {operator : Operator} {body : SyntaxTree α} (hoperator : operator ∈ postfixes)
      (hbody : Derives scope .suffixed body) : Derives scope .suffixed (.after operator body)
  | operand (value : α) : Derives scope .primary (.operand value)
  | bracket {body : SyntaxTree α} (hbody : Derives scope .expr body) :
      Derives scope .primary (.bracket body)
  | call {name : String} {args : List (SyntaxTree α)}
      (hcount : scope.accepts name args.length = true)
      (hargs : ∀ arg ∈ args, Derives scope .expr arg) : Derives scope .primary (.call name args)

variable {scope : Grammar α} {tree body left right : SyntaxTree α} {operator : Operator}
  {nonterminal : Nonterminal} {written : Bool}

/-! ## Derivation trees follow precedence -/

namespace Nonterminal

/-- The operators that may have their left operand at the start of a tree. -/
def leading : Nonterminal → List Operator
  | expr => betweens
  | term => products ++ powers
  | unary | power => powers
  | suffixed | primary => []

/-- The operators that may wait at the end of a tree. -/
def waiting : Nonterminal → List Operator
  | expr => signs ++ betweens
  | term => signs ++ products ++ powers
  | unary | power => signs ++ powers
  | suffixed | primary => []

/-- True if trees start with an operand. -/
def unsigned : Nonterminal → Bool
  | expr | term | unary => false
  | power | suffixed | primary => true

end Nonterminal

/-- What can stand at the edges of a derivation tree. -/
structure Bounded (nonterminal : Nonterminal) (tree : SyntaxTree α) : Prop where
  leading : ∀ operator ∈ tree.leading, operator ∈ nonterminal.leading
  waiting : ∀ operator ∈ tree.waiting, operator ∈ nonterminal.waiting
  signed : nonterminal.unsigned = true → tree.signed = false

theorem Bounded.mono {nonterminal' : Nonterminal} (h : Bounded nonterminal tree)
    (hleading : ∀ operator ∈ nonterminal.leading, operator ∈ nonterminal'.leading)
    (hwaiting : ∀ operator ∈ nonterminal.waiting, operator ∈ nonterminal'.waiting)
    (hunsigned : nonterminal'.unsigned = true → nonterminal.unsigned = true) :
    Bounded nonterminal' tree where
  leading operator hoperator := hleading operator (h.leading operator hoperator)
  waiting operator hoperator := hwaiting operator (h.waiting operator hoperator)
  signed hunsigned' := h.signed (hunsigned hunsigned')

theorem bounded_between {first last : Nonterminal} {operators : List Operator}
    (hoperator : operator ∈ operators)
    (hleft : Bounded first left) (hright : Bounded last right)
    (hleading : ∀ other ∈ operators ++ first.leading, other ∈ nonterminal.leading)
    (hwaiting : ∀ other ∈ last.waiting ++ operators, other ∈ nonterminal.waiting)
    (hunsigned : nonterminal.unsigned = true → first.unsigned = true) :
    Bounded nonterminal (.between operator written left right) where
  leading := List.forall_mem_cons.mpr ⟨hleading operator (List.mem_append_left _ hoperator),
    fun other hother => hleading other (List.mem_append_right _ (hleft.leading other hother))⟩
  waiting := List.forall_mem_append.mpr
    ⟨fun other hother => hwaiting other (List.mem_append_left _ (hright.waiting other hother)),
      by simpa using hwaiting operator (List.mem_append_right _ hoperator)⟩
  signed h := hleft.signed (hunsigned h)

theorem Derives.bounded (h : Derives scope nonterminal tree) : Bounded nonterminal tree := by
  induction h with
  | term _ ih | unary _ ih | power _ ih | suffixed _ ih | primary _ ih =>
      exact ih.mono (by decide) (by decide) (by decide)
  | sum hoperator _ _ ihleft ihright | product hoperator _ _ ihleft ihright
  | raise hoperator _ _ ihleft ihright =>
      exact bounded_between hoperator ihleft ihright (by decide) (by decide) (by decide)
  | implicit _ _ ihleft ihright =>
      have hoperator : multiplying ∈ [multiplying] := by simp
      exact bounded_between hoperator ihleft ihright (by decide) (by decide) (by decide)
  | @sign operator body hoperator _ ih =>
      have hsigns : ∀ other ∈ signs, other ∈ Nonterminal.unary.waiting := by decide
      exact ⟨by simp [SyntaxTree.leading], List.forall_mem_append.mpr
        ⟨ih.waiting, by simpa using hsigns operator hoperator⟩, fun h => absurd h (by decide)⟩
  | suffix _ _ ih =>
      exact ⟨ih.leading, by simp [SyntaxTree.waiting], ih.signed⟩
  | operand | bracket | call =>
      exact ⟨by simp [SyntaxTree.leading], by simp [SyntaxTree.waiting], fun _ => rfl⟩

/-- An operator whose operands are derived from nonterminals that bind tightly enough. -/
theorem grouped_between {first last : Nonterminal} {operators : List Operator}
    (hyields : ∀ other ∈ operators, other.role = .between ∧
      (∀ before ∈ first.waiting, before.yieldsTo other = true) ∧
      ∀ next ∈ last.leading, other.yieldsTo next = false)
    (hoperator : operator ∈ operators) (hleft : Derives scope first left)
    (hright : Derives scope last right) (hgroupedLeft : Grouped scope multiplying left)
    (hgroupedRight : Grouped scope multiplying right)
    (hwritten : written = false → operator = multiplying ∧ right.signed = false) :
    Grouped scope multiplying (.between operator written left right) := by
  obtain ⟨hrole, hbefore, hnext⟩ := hyields operator hoperator
  exact .between hrole hgroupedLeft hgroupedRight
    (fun last h => hbefore last (hleft.bounded.waiting last h))
    (fun next h => hnext next (hright.bounded.leading next h)) hwritten

/-- Derivation trees are trees that precedence allows. -/
theorem Derives.grouped (h : Derives scope nonterminal tree) : Grouped scope multiplying tree := by
  induction h with
  | term _ ih | unary _ ih | power _ ih | suffixed _ ih | primary _ ih => exact ih
  | sum hoperator hleft hright ihleft ihright | product hoperator hleft hright ihleft ihright
  | raise hoperator hleft hright ihleft ihright =>
      exact grouped_between (by decide) hoperator hleft hright ihleft ihright (by simp)
  | implicit hleft hright ihleft ihright =>
      have hoperator : multiplying ∈ [multiplying] := by simp
      exact grouped_between (by decide) hoperator hleft hright ihleft ihright
        fun _ => ⟨rfl, hright.bounded.signed rfl⟩
  | @sign operator body hoperator hbody ih =>
      have hyields : ∀ other ∈ signs, other.role = .before ∧
          ∀ next ∈ Nonterminal.unary.leading, other.yieldsTo next = false := by decide
      obtain ⟨hrole, hnext⟩ := hyields operator hoperator
      exact .before hrole ih fun next h => hnext next (hbody.bounded.leading next h)
  | @suffix operator body hoperator hbody ih =>
      have hroles : ∀ other ∈ postfixes, other.role = .after := by decide
      exact .after (hroles operator hoperator) ih
        (List.eq_nil_iff_forall_not_mem.mpr fun last h =>
          List.not_mem_nil (hbody.bounded.waiting last h))
  | operand value => exact .operand value
  | bracket _ ih => exact .bracket ih
  | call hcount _ ih => exact .call hcount ih

/-! ## Trees that follow precedence are derived -/

/-- The operators of a tree are in a table. -/
def Over (table : OperatorTable) (tree : SyntaxTree α) : Prop :=
  ∀ operator, .operator operator ∈ tree.atoms → operator ∈ table.operators

/-- The levels from which a tree is derived, by the operator at its root. -/
structure Derivable (scope : Grammar α) (tree : SyntaxTree α) : Prop where
  leading : ∀ operator ∈ tree.leading, operator ∈ betweens
  waiting : ∀ operator ∈ tree.waiting, operator ∈ signs ++ betweens
  root : ∀ operator ∈ tree.leading.head?, operator ∈ tree.waiting
  expr : Derives scope .expr tree
  term : (∀ operator ∈ tree.leading.head?, operator ∉ sums) → Derives scope .term tree
  unary : (∀ operator ∈ tree.leading.head?, operator ∈ powers) → Derives scope .unary tree
  power : (∀ operator ∈ tree.leading.head?, operator ∈ powers) → tree.signed = false →
    Derives scope .power tree
  suffixed : tree.waiting = [] → Derives scope .suffixed tree

theorem derivable_of_suffixed (h : Derives scope .suffixed tree) : Derivable scope tree := by
  have hleading : tree.leading = [] := List.eq_nil_iff_forall_not_mem.mpr fun operator hoperator =>
    List.not_mem_nil (h.bounded.leading operator hoperator)
  have hwaiting : tree.waiting = [] := List.eq_nil_iff_forall_not_mem.mpr fun operator hoperator =>
    List.not_mem_nil (h.bounded.waiting operator hoperator)
  have hunary : Derives scope .unary tree := .power (.suffixed h)
  exact ⟨by simp [hleading], by simp [hwaiting], by simp [hleading], .term (.unary hunary),
    fun _ => .unary hunary, fun _ => hunary, fun _ _ => .suffixed h, fun _ => h⟩

/-- A signed tree. -/
theorem derivable_before (hoperator : operator ∈ signs) (hbody : Derivable scope body)
    (hleading : ∀ next ∈ body.leading, operator.yieldsTo next = false) :
    Derivable scope (.before operator body) := by
  have hnext : ∀ other ∈ signs, ∀ next ∈ betweens, other.yieldsTo next = false →
      next ∈ powers := by decide
  have hunary : Derives scope .unary (.before operator body) :=
    .sign hoperator (hbody.unary fun next h => by
      have hmem := List.mem_of_mem_head? h
      exact hnext operator hoperator next (hbody.leading next hmem) (hleading next hmem))
  refine ⟨nofun, ?_, nofun, .term (.unary hunary), fun _ => .unary hunary, fun _ => hunary,
    nofun, by simp [SyntaxTree.waiting]⟩
  exact List.forall_mem_append.mpr ⟨hbody.waiting, by simp [hoperator]⟩

section

variable (hleft : Derivable scope left) (hright : Derivable scope right)
  (hwaiting : ∀ last ∈ left.waiting, last.yieldsTo operator = true)
  (hleading : ∀ next ∈ right.leading, operator.yieldsTo next = false)
  (hwritten : written = false → operator = multiplying ∧ right.signed = false)

include hleft hright hleading hwritten

theorem derives_sum (hoperator : operator ∈ sums) :
    Derives scope .expr (.between operator written left right) := by
  have hnext : ∀ other ∈ sums, ∀ next ∈ betweens, other.yieldsTo next = false → next ∉ sums := by
    decide
  cases written with
  | false =>
      obtain ⟨rfl, -⟩ := hwritten rfl
      exact absurd hoperator (by decide)
  | true =>
      refine .sum hoperator hleft.expr (hright.term fun next h => ?_)
      have hmem := List.mem_of_mem_head? h
      exact hnext operator hoperator next (hright.leading next hmem) (hleading next hmem)

include hwaiting

theorem derives_product (hoperator : operator ∈ products) :
    Derives scope .term (.between operator written left right) := by
  have hbefore : ∀ other ∈ products, ∀ last ∈ signs ++ betweens, last.yieldsTo other = true →
      last ∉ sums := by decide
  have hnext : ∀ other ∈ products, ∀ next ∈ betweens, other.yieldsTo next = false →
      next ∈ powers := by decide
  have hfirst : Derives scope .term left := hleft.term fun last h => by
    have hmem := hleft.root last h
    exact hbefore operator hoperator last (hleft.waiting last hmem) (hwaiting last hmem)
  have hroot : ∀ next ∈ right.leading.head?, next ∈ powers := fun next h => by
    have hmem := List.mem_of_mem_head? h
    exact hnext operator hoperator next (hright.leading next hmem) (hleading next hmem)
  cases written with
  | true => exact .product hoperator hfirst (hright.unary hroot)
  | false =>
      obtain ⟨rfl, hsigned⟩ := hwritten rfl
      exact .implicit hfirst (hright.power hroot hsigned)

theorem derives_power (hoperator : operator ∈ powers) :
    Derives scope .power (.between operator written left right) := by
  have hbefore : ∀ other ∈ powers, ∀ last ∈ signs ++ betweens, last.yieldsTo other = false := by
    decide
  have hnext : ∀ other ∈ powers, ∀ next ∈ betweens, other.yieldsTo next = false →
      next ∈ powers := by decide
  have hempty : left.waiting = [] := List.eq_nil_iff_forall_not_mem.mpr fun last h => by
    have hyields := hwaiting last h
    rw [hbefore operator hoperator last (hleft.waiting last h)] at hyields
    cases hyields
  cases written with
  | false =>
      obtain ⟨rfl, -⟩ := hwritten rfl
      exact absurd hoperator (by decide)
  | true =>
      refine .raise hoperator (hleft.suffixed hempty) (hright.unary fun next h => ?_)
      have hmem := List.mem_of_mem_head? h
      exact hnext operator hoperator next (hright.leading next hmem) (hleading next hmem)

/-- What an operator between operands derives depends on its level. -/
theorem derivable_between (hoperator : operator ∈ betweens) :
    Derivable scope (.between operator written left right) := by
  have hroot : operator ∈ (SyntaxTree.between operator written left right).leading.head? := rfl
  have hmem : ∀ other ∈ betweens, other ∈ signs ++ betweens := by decide
  have hapart : ∀ other ∈ sums ++ products, other ∉ powers := by decide
  have hedges : Derives scope .expr (.between operator written left right) → _ → _ → _ →
      Derivable scope (.between operator written left right) := fun hexpr hterm hunary hpower =>
    { leading := List.forall_mem_cons.mpr ⟨hoperator, hleft.leading⟩
      waiting := List.forall_mem_append.mpr ⟨hright.waiting, by simpa using hmem _ hoperator⟩
      root := by rintro other ⟨⟩; simp [SyntaxTree.waiting]
      expr := hexpr
      term := hterm
      unary := hunary
      power := hpower
      suffixed := by simp [SyntaxTree.waiting] }
  rcases List.mem_append.mp hoperator with hlow | hpowers
  · have hother := hapart operator hlow
    rcases List.mem_append.mp hlow with hsums | hproducts
    · have hsum := derives_sum hleft hright hleading hwritten hsums
      exact hedges hsum (fun h => absurd hsums (h operator hroot))
        (fun h => absurd (h operator hroot) hother) fun h => absurd (h operator hroot) hother
    · have hproduct := derives_product hleft hright hwaiting hleading hwritten hproducts
      exact hedges (.term hproduct) (fun _ => hproduct)
        (fun h => absurd (h operator hroot) hother) fun h => absurd (h operator hroot) hother
  · have hpower := derives_power hleft hright hwaiting hleading hwritten hpowers
    exact hedges (.term (.unary (.power hpower))) (fun _ => .unary (.power hpower))
      (fun _ => .power hpower) fun _ _ => hpower

end

theorem mem_argsAtoms {atom : Atom α} {args : List (SyntaxTree α)} (h : tree ∈ args)
    (hatom : atom ∈ tree.atoms) : atom ∈ argsAtoms args := by
  induction args with
  | nil => cases h
  | cons arg args ih =>
      cases args with
      | nil =>
          obtain rfl := List.mem_singleton.mp h
          exact hatom
      | cons next others =>
          rw [argsAtoms]
          · rcases List.mem_cons.mp h with rfl | hmem
            · exact List.mem_append_left _ hatom
            · exact List.mem_append_right _ (List.mem_cons_of_mem _ (ih hmem))
          · simp

/-- Trees of standard operators that precedence allows are derived. -/
theorem Grouped.derivable (h : Grouped scope multiplying tree) (hover : Over .standard tree) :
    Derivable scope tree := by
  induction h with
  | operand value => exact derivable_of_suffixed (.primary (.operand value))
  | call hcount _ ih =>
      refine derivable_of_suffixed (.primary (.call hcount fun arg harg =>
        (ih arg harg fun operator h => hover operator ?_).expr))
      simp [SyntaxTree.atoms, mem_argsAtoms harg h]
  | bracket _ ih =>
      exact derivable_of_suffixed (.primary (.bracket (ih fun operator h =>
        hover operator (by simp [SyntaxTree.atoms, h])).expr))
  | @before operator body hrole _ hleading ih =>
      have hsigns : ∀ other ∈ OperatorTable.standard.operators, other.role = .before →
          other ∈ signs := by decide
      have hoperator := hsigns operator (hover operator (by simp [SyntaxTree.atoms])) hrole
      exact derivable_before hoperator (ih fun operator h =>
        hover operator (by simp [SyntaxTree.atoms, h])) hleading
  | @after operator body hrole _ hwaiting ih =>
      have hpostfixes : ∀ other ∈ OperatorTable.standard.operators, other.role = .after →
          other ∈ postfixes := by decide
      have hoperator := hpostfixes operator (hover operator (by simp [SyntaxTree.atoms])) hrole
      have hbody := ih fun operator h => hover operator (by simp [SyntaxTree.atoms, h])
      exact derivable_of_suffixed (.suffix hoperator (hbody.suffixed hwaiting))
  | @between operator written left right hrole _ _ hwaiting hleading hwritten ihleft ihright =>
      have hbetweens : ∀ other ∈ OperatorTable.standard.operators, other.role = .between →
          other ∈ betweens := by decide
      have hoperator : operator ∈ betweens := by
        cases written with
        | true => exact hbetweens operator (hover operator (by simp [SyntaxTree.atoms, mark])) hrole
        | false =>
            obtain ⟨rfl, -⟩ := hwritten rfl
            decide
      exact derivable_between
        (ihleft fun operator h => hover operator (by simp [SyntaxTree.atoms, h]))
        (ihright fun operator h => hover operator (by simp [SyntaxTree.atoms, h]))
        hwaiting hleading hwritten hoperator

/-! ## The standard notation -/

end ExactAlgebra
