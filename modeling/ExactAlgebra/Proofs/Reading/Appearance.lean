import ExactAlgebra.Proofs.Expr.Rearranged
import ExactAlgebra.Proofs.Reading.Written

/-!
# Written forms of equal expressions

Terms and factors are written in an order of their own, which goes by what is written.  So
expressions of one identity have one written form in every style, whatever the order of the
children is at any depth.
-/

namespace ExactAlgebra

namespace Style

theorem join_eq_of_perm {terms terms' : List Term} (h : terms.Perm terms') :
    join terms = join terms' := by
  let key (term : Term) : Bool ×ₗ ℚᵒᵈ ×ₗ String :=
    toLex (term.isNumber, toLex (OrderDual.toDual term.degree, term.text))
  have hkey : Function.Injective key := by
    rintro ⟨_, _, _⟩ ⟨_, _, _⟩ h
    simpa [key] using h
  rw [join, join, mergeSort_eq_of_perm hkey (fun a b => ?_) h]
  obtain ⟨isNumber, degree, text⟩ := a
  obtain ⟨isNumber', degree', text'⟩ := b
  cases isNumber <;> cases isNumber' <;> simp [Term.le, key, Prod.Lex.toLex_le_toLex]
  all_goals
    split_ifs with hdegree
    · simp [hdegree]
    · simp [hdegree]

/-- The text of a sum with some terms. -/
def joined (terms : Multiset Term) : String := Quot.liftOn terms join fun _ _ => join_eq_of_perm

@[simp] theorem joined_coe (terms : List Term) : joined terms = join terms := rfl

/-- The texts of factors in order. -/
def ordered (factors : Multiset (Bool × String)) : List String :=
  Quot.liftOn factors (fun factors => (factors.mergeSort factorLe).map Prod.snd) fun _ _ h => by
    refine congrArg _ (mergeSort_eq_of_perm toLex.injective (fun a b => ?_) h)
    obtain ⟨first, text⟩ := a
    obtain ⟨second, text'⟩ := b
    cases first <;> cases second <;> simp [factorLe, Prod.Lex.toLex_le_toLex]

@[simp] theorem ordered_coe (factors : List (Bool × String)) :
    ordered factors = (factors.mergeSort factorLe).map Prod.snd := rfl

end Style

/-! ## Steps in any order -/

/-- A class of outcomes of which two can be computed in either order. -/
structure Orderless (m : Type → Type) [Monad m] where
  holds : {A : Type} → m A → Prop
  value : ∀ {A : Type} (a : A), holds (pure a)
  steps : ∀ {A B : Type} {x : m A} {next : A → m B}, holds x → (∀ a, holds (next a)) →
    holds (x >>= next)
  swap : ∀ {A B C : Type} {x : m A} {y : m B} (next : A → B → m C), holds x → holds y →
    (x >>= fun a => y >>= fun b => next a b) = y >>= fun b => x >>= fun a => next a b

namespace Orderless

/-- Outcomes without effects. -/
def plain : Orderless Id where
  holds _ := True
  value _ := trivial
  steps _ _ := trivial
  swap _ _ _ := rfl

/-- Outcomes that fail in one way only. -/
def oneFault (fault : Fault) : Orderless (Except Fault) where
  holds outcome := ∀ other, outcome = .error other → other = fault
  value _ := nofun
  steps {A B x next} hx hnext other h := by
    cases x with
    | error own => exact hx other (by simpa [bind, Except.bind] using h)
    | ok a => exact hnext a other h
  swap {A B C x y} next hx hy := by
    cases x with
    | ok a => cases y <;> rfl
    | error first =>
        cases y with
        | ok b => rfl
        | error second => exact congrArg _ ((hx first rfl).trans (hy second rfl).symm)

variable {m : Type → Type} [Monad m] [LawfulMonad m] (order : Orderless m)

/-- What several outcomes give together. -/
def total {A : Type} : List (m (Multiset A)) → m (Multiset A)
  | [] => return 0
  | outcome :: outcomes => do return (← outcome) + (← total outcomes)

theorem total_eq_of_perm {A : Type} {outcomes outcomes' : List (m (Multiset A))}
    (hholds : ∀ outcome ∈ outcomes, order.holds outcome) (h : outcomes.Perm outcomes') :
    total outcomes = total outcomes' := by
  induction h with
  | nil => rfl
  | cons outcome _ ih =>
      rw [total, total, ih fun other hother => hholds other (.tail _ hother)]
  | swap first second rest =>
      obtain ⟨hsecond, hfirst, -⟩ := by simpa only [List.forall_mem_cons] using hholds
      simp only [total, bind_assoc, pure_bind]
      rw [order.swap _ hsecond hfirst]
      simp only [add_left_comm]
  | trans hfirst _ ih ih' =>
      exact (ih hholds).trans (ih' fun other hother => hholds other (hfirst.symm.subset hother))

end Orderless

namespace Style

open Orderless

variable {m : Type → Type} [Monad m] {style : Style m} {order : Orderless m}

/-- The parts of a style have outcomes of a class. -/
structure Keeps (style : Style m) (order : Orderless m) : Prop where
  constant : ∀ value, order.holds (style.constant value)
  scaled : ∀ coeff body, order.holds (style.scaled coeff body)
  raised : ∀ base power simple, order.holds (style.raised base power simple)

theorem keeps_infixText {decimals : Bool} {constant : Rat → m String}
    (h : ∀ value, order.holds (constant value)) : (infixText decimals constant).Keeps order where
  constant := h
  scaled coeff body := by
    simp only [infixText]
    split_ifs <;> first | exact order.value _ | exact order.steps (h _) fun _ => order.value _
  raised base power simple := by
    simp only [infixText]
    split_ifs <;> exact order.value _

theorem keeps_latex {decimals : Bool} {decimal : Rat → m String}
    (h : ∀ value, order.holds (decimal value)) : (latex decimals decimal).Keeps order where
  constant value := by
    simp only [latex]
    split_ifs
    · exact h value
    · exact order.value _
  scaled coeff body := by
    simp only [latex]
    split_ifs <;> first | exact order.value _ | exact order.steps (h _) fun _ => order.value _
  raised base power simple := by
    simp only [latex]
    split_ifs <;>
      first
        | exact order.value _
        | exact order.steps (h _) fun _ => order.value _
        | exact order.steps (order.value _) fun _ => order.value _

theorem Keeps.term (h : style.Keeps order) (degree coeff : Rat) (body : String) :
    order.holds (do return [⟨false, degree, ← style.scaled coeff body⟩] : m (List Term)) :=
  order.steps (h.scaled coeff body) fun _ => order.value _

theorem Keeps.raisedTerm (h : style.Keeps order) (degree coeff : Rat) (base : String)
    (power : Rat) (simple : Bool) :
    order.holds (do
      let body ← style.raised base power simple
      return [⟨false, degree, ← style.scaled coeff body⟩] : m (List Term)) :=
  order.steps (h.raised base power simple) fun _ => h.term ..

mutual

theorem Keeps.terms (h : style.Keeps order) (node : Expr) : order.holds (style.terms node) := by
  match node with
  | .number value =>
      rw [Style.terms]
      exact order.steps (h.constant value) fun _ => order.value _
  | .radical coeff base power =>
      rw [Style.terms]
      exact order.steps (h.constant base) fun _ => h.raisedTerm ..
  | .symbol coeff name power =>
      rw [Style.terms]
      exact h.raisedTerm ..
  | .exponential coeff base exponent =>
      rw [Style.terms.eq_def]
      exact order.steps (h.terms base) fun _ => order.steps (h.terms exponent) fun _ => h.term ..
  | .call coeff name args power =>
      rw [Style.terms]
      exact order.steps (h.argsTexts args) fun _ => h.raisedTerm ..
  | .polynomial coeff power children | .composite coeff power children =>
      rw [Style.terms]
      split_ifs
      · exact h.slotsTerms children
      · exact order.steps (h.slotsTerms children) fun _ => h.raisedTerm ..
  | .product coeff power factors =>
      rw [Style.terms]
      exact order.steps (h.factorTexts factors) fun _ => h.term ..

theorem Keeps.argsTexts (h : style.Keeps order) (args : List Expr) :
    order.holds (style.argsTexts args) := by
  match args with
  | [] =>
      rw [Style.argsTexts]
      exact order.value _
  | arg :: args =>
      rw [Style.argsTexts]
      exact order.steps (h.terms arg) fun _ => order.steps (h.argsTexts args) fun _ =>
        order.value _

theorem Keeps.slotsTerms (h : style.Keeps order) (children : List (Key × Expr)) :
    order.holds (style.slotsTerms children) := by
  match children with
  | [] =>
      rw [Style.slotsTerms]
      exact order.value _
  | (_, child) :: rest =>
      rw [Style.slotsTerms]
      exact order.steps (h.terms child) fun _ => order.steps (h.slotsTerms rest) fun _ =>
        order.value _

theorem Keeps.factorTexts (h : style.Keeps order) (factors : List (Key × Expr)) :
    order.holds (style.factorTexts factors) := by
  match factors with
  | [] =>
      rw [Style.factorTexts]
      exact order.value _
  | (_, factor) :: rest =>
      rw [Style.factorTexts]
      exact order.steps (h.terms factor) fun _ => order.steps (h.factorTexts rest) fun _ =>
        order.value _

end

/-! ## Terms without order -/

/-- The terms of an expression. -/
def bag (style : Style m) (node : Expr) : m (Multiset Term) := do
  return ↑(← style.terms node)

theorem holds_bag (h : style.Keeps order) (node : Expr) : order.holds (style.bag node) :=
  order.steps (h.terms node) fun _ => order.value _

/-- A factor, marked if it is no radical. -/
def factorBag (style : Style m) (factor : Expr) : m (Multiset (Bool × String)) := do
  return {(factor.group != .radical, joined (← style.bag factor))}

/-- A term alone, with its coefficient. -/
def single (style : Style m) (degree coeff : Rat) (body : String) : m (Multiset Term) := do
  return {⟨false, degree, ← style.scaled coeff body⟩}

variable [LawfulMonad m]

theorem write_eq (node : Expr) : style.write node = do return joined (← style.bag node) := by
  simp [write, bag]

theorem bag_slots (slots : Slots) :
    (do return ↑(← style.slotsTerms slots) : m (Multiset Term)) =
      total (slots.map fun slot => style.bag slot.2) := by
  induction slots with
  | nil => simp [slotsTerms, total]
  | cons slot rest ih =>
      rw [List.map_cons, total, ← ih, slotsTerms]
      simp [bag]

theorem bag_factors (factors : Slots) :
    (do return ↑(← style.factorTexts factors) : m (Multiset (Bool × String))) =
      total (factors.map fun slot => style.factorBag slot.2) := by
  induction factors with
  | nil => simp [factorTexts, total]
  | cons slot rest ih =>
      rw [List.map_cons, total, ← ih, factorTexts]
      simp [factorBag, bag]

theorem bag_exponential (coeff : Rat) (base exponent : Expr) :
    style.bag (.exponential coeff base exponent) = (do
      let baseText := joined (← style.bag base)
      let exponentText := joined (← style.bag exponent)
      style.single 0 coeff (style.exponential baseText (isSimpleBase base) exponentText
        (isBare exponent))) := by
  rw [bag, terms.eq_def]
  cases base <;> simp [bag, single, isSimpleBase]

theorem bag_call (coeff : Rat) (name : String) (args : List Expr) (power : Rat) :
    style.bag (.call coeff name args power) = (do
      let body ← style.raised (style.call name (← style.argsTexts args)) power true
      style.single power coeff body) := by
  rw [bag, terms]
  simp [single]

theorem bag_product (coeff power : Rat) (factors : Slots) :
    style.bag (.product coeff power factors) = (do
      let texts := ordered (← total (factors.map fun slot => style.factorBag slot.2))
      style.single (Expr.product coeff power factors).degree coeff (style.product texts)) := by
  rw [bag, terms, ← bag_factors]
  simp [single]

theorem bag_of_isSum {node : Expr} (h : node.isSum = true) :
    style.bag node =
      if node.degreePower = 1 then total (node.slots.map fun slot => style.bag slot.2)
      else (do
        let inner := joined (← total (node.slots.map fun slot => style.bag slot.2))
        let body ← style.raised inner node.degreePower false
        style.single node.degreePower node.coeff body) := by
  cases node <;> simp only [Expr.isSum, Bool.false_eq_true] at h
  all_goals
    rw [bag, terms, ← bag_slots, Expr.degreePower]
    split_ifs
    · rfl
    · simp [single, Expr.slots, Expr.coeff]

end Style

/-! ## What an identity shows -/

namespace Expr

variable {a b node : Expr}

/-- The degree of a factor of a product. -/
def factorDegree (node : Expr) : Rat := if node.group = .exponential then 0 else node.degreePower

theorem degree?_of_isFactor (h : node.isFactor = true) : node.degree? = some node.factorDegree := by
  obtain ⟨hnumber, hgroup, hsum⟩ := isFactor_iff.mp h
  cases node <;>
    simp_all [degree?, factorDegree, group, degreePower, isNumber, isExpandedSum, isSum]

theorem factorDegree_eq (h : a.signature = b.signature) : a.factorDegree = b.factorDegree := by
  have hcontent := content_eq_of_signature h
  rw [factorDegree, factorDegree, group_eq_of_content hcontent,
    degreePower_eq_of_content hcontent]

theorem totalDegree?_eq {factors : Slots} (h : ∀ slot ∈ factors, slot.2.isFactor = true) :
    totalDegree? factors = some (factors.map fun slot => slot.2.factorDegree).sum := by
  induction factors with
  | nil => rfl
  | cons slot rest ih =>
      obtain ⟨hslot, hrest⟩ := List.forall_mem_cons.mp h
      rw [totalDegree?, degree?_of_isFactor hslot, ih hrest, List.map_cons, List.sum_cons]
      rfl

theorem isSimpleBase_eq (h : a.signature = b.signature) : isSimpleBase a = isSimpleBase b := by
  have hfacts (node : Expr) : isSimpleBase node =
      if node.isNumber then decide (0 < node.coeff) && Ratio.isInteger node.coeff
      else !node.isSum := by
    cases node <;> rfl
  have hcontent := content_eq_of_signature h
  rw [hfacts, hfacts, coeff_eq_of_signature h, isNumber_eq_of_content hcontent,
    isSum_eq_of_content hcontent]

theorem isBare_eq (h : a.signature = b.signature) : Style.isBare a = Style.isBare b := by
  have hfacts (node : Expr) : Style.isBare node =
      (decide (node.group = .symbol ∨ node.group = .call) && (node.coeff == 1 &&
        node.degreePower == 1)) := by
    cases node <;> rfl
  have hcontent := content_eq_of_signature h
  rw [hfacts, hfacts, coeff_eq_of_signature h, group_eq_of_content hcontent,
    degreePower_eq_of_content hcontent]

theorem signatures_eq_of_exponential {coeff coeff' : Rat} {base base' exponent exponent' : Expr}
    (h : (exponential coeff base exponent).content = (exponential coeff' base' exponent').content) :
    base.signature = base'.signature ∧ exponent.signature = exponent'.signature := by
  simpa [content, Key.tuple, signature] using h

theorem args_eq_of_call {coeff coeff' power power' : Rat} {name name' : String}
    {args args' : List Expr}
    (h : (call coeff name args power).content = (call coeff' name' args' power').content) :
    name = name' ∧ args.map signature = args'.map signature ∧ power = power' := by
  have htuple (keys keys' : List Key) : Key.tuple keys = Key.tuple keys' ↔ keys = keys' := by
    induction keys generalizing keys' with
    | nil => cases keys' <;> simp [Key.tuple]
    | cons key keys ih => cases keys' <;> simp [Key.tuple, ih]
  simpa [content, htuple, argsSignatures_eq] using h

end Expr

theorem Canonical.exponential_parts {rules : Discipline} {coeff : Rat} {base exponent : Expr}
    (h : Canonical rules (.exponential coeff base exponent)) :
    Canonical rules base ∧ Canonical rules exponent := by
  cases h with
  | constantBase _ _ _ _ hexponent _ => exact ⟨.number _, hexponent⟩
  | plainBase _ _ _ hbase hexponent _ => exact ⟨hbase, hexponent⟩

namespace Style

open ExactAlgebra.Expr Orderless

variable {m : Type → Type} [Monad m] [LawfulMonad m] {style : Style m} {order : Orderless m}
  {rules : Discipline} {a b : Expr}

theorem argsTexts_eq_of_bags {args args' : List Expr}
    (h : List.Forall₂ (fun arg arg' => style.bag arg = style.bag arg') args args') :
    style.argsTexts args = style.argsTexts args' := by
  have hargs (arg : Expr) (args : List Expr) : style.argsTexts (arg :: args) =
      (do return joined (← style.bag arg) :: (← style.argsTexts args)) := by
    rw [argsTexts]
    simp [bag]
  induction h with
  | nil => rfl
  | cons harg _ ih => rw [hargs, hargs, harg, ih]

/-- Children of the same identities have the same terms together. -/
theorem total_bags_eq (h : style.Keeps order) {slots slots' : Slots}
    (hperm : slots.signatures.Perm slots'.signatures)
    (hbag : ∀ slot ∈ slots, ∀ slot' ∈ slots', slot.2.signature = slot'.2.signature →
      style.bag slot.2 = style.bag slot'.2) :
    total (slots.map fun slot => style.bag slot.2) =
      total (slots'.map fun slot => style.bag slot.2) := by
  refine total_eq_of_perm order (fun outcome houtcome => ?_) (Slots.map_perm hperm hbag)
  obtain ⟨slot, -, rfl⟩ := List.mem_map.mp houtcome
  exact holds_bag h slot.2

theorem total_factorBags_eq (h : style.Keeps order) {slots slots' : Slots}
    (hperm : slots.signatures.Perm slots'.signatures)
    (hbag : ∀ slot ∈ slots, ∀ slot' ∈ slots', slot.2.signature = slot'.2.signature →
      style.bag slot.2 = style.bag slot'.2) :
    total (slots.map fun slot => style.factorBag slot.2) =
      total (slots'.map fun slot => style.factorBag slot.2) := by
  refine total_eq_of_perm order (fun outcome houtcome => ?_)
    (Slots.map_perm hperm fun slot hslot slot' hslot' hsame => ?_)
  · obtain ⟨slot, -, rfl⟩ := List.mem_map.mp houtcome
    exact order.steps (holds_bag h slot.2) fun _ => order.value _
  · rw [factorBag, factorBag, hbag slot hslot slot' hslot' hsame,
      group_eq_of_content (content_eq_of_signature hsame)]

theorem bag_eq_of_isSum (h : style.Keeps order) (ha : Canonical rules a) (hb : Canonical rules b)
    (hsame : a.signature = b.signature) (hsum : a.isSum = true)
    (hbag : ∀ slot ∈ a.slots, ∀ slot' ∈ b.slots, slot.2.signature = slot'.2.signature →
      style.bag slot.2 = style.bag slot'.2) : style.bag a = style.bag b := by
  have hcontent := content_eq_of_signature hsame
  rw [bag_of_isSum hsum, bag_of_isSum ((isSum_eq_of_content hcontent).symm.trans hsum),
    total_bags_eq h (ha.signatures_perm hb hcontent) hbag, degreePower_eq_of_content hcontent,
    coeff_eq_of_signature hsame]

theorem bag_eq_of_exponential {coeff coeff' : Rat} {base base' exponent exponent' : Expr}
    (hsame : (Expr.exponential coeff base exponent).signature =
      (Expr.exponential coeff' base' exponent').signature)
    (hbase : base.signature = base'.signature → style.bag base = style.bag base')
    (hexponent : exponent.signature = exponent'.signature →
      style.bag exponent = style.bag exponent') :
    style.bag (.exponential coeff base exponent) =
      style.bag (.exponential coeff' base' exponent') := by
  obtain rfl : coeff = coeff' := coeff_eq_of_signature hsame
  obtain ⟨hbaseSame, hexponentSame⟩ :=
    signatures_eq_of_exponential (content_eq_of_signature hsame)
  rw [bag_exponential, bag_exponential, hbase hbaseSame, hexponent hexponentSame,
    isSimpleBase_eq hbaseSame, isBare_eq hexponentSame]

theorem bag_eq_of_call {coeff coeff' power power' : Rat} {name name' : String}
    {args args' : List Expr}
    (hsame : (Expr.call coeff name args power).signature =
      (Expr.call coeff' name' args' power').signature)
    (hargs : ∀ arg ∈ args, ∀ arg' ∈ args', arg.signature = arg'.signature →
      style.bag arg = style.bag arg') :
    style.bag (.call coeff name args power) = style.bag (.call coeff' name' args' power') := by
  obtain rfl : coeff = coeff' := coeff_eq_of_signature hsame
  obtain ⟨rfl, hsignatures, rfl⟩ := args_eq_of_call (content_eq_of_signature hsame)
  have hbags : List.Forall₂ (fun arg arg' => style.bag arg = style.bag arg') args args' := by
    have hpairs := map_signature_eq_iff.mp hsignatures
    rw [List.forall₂_iff_get] at hpairs ⊢
    exact ⟨hpairs.1, fun i hi hi' =>
      hargs _ (List.get_mem ..) _ (List.get_mem ..) (hpairs.2 i hi hi')⟩
  rw [bag_call, bag_call, argsTexts_eq_of_bags hbags]

theorem bag_eq_of_product (h : style.Keeps order) {coeff coeff' : Rat} {factors factors' : Slots}
    (ha : Canonical rules (.product coeff 1 factors))
    (hb : Canonical rules (.product coeff' 1 factors'))
    (hsame : (Expr.product coeff 1 factors).signature = (Expr.product coeff' 1 factors').signature)
    (hbag : ∀ slot ∈ factors, ∀ slot' ∈ factors', slot.2.signature = slot'.2.signature →
      style.bag slot.2 = style.bag slot'.2) :
    style.bag (.product coeff 1 factors) = style.bag (.product coeff' 1 factors') := by
  obtain rfl : coeff = coeff' := coeff_eq_of_signature hsame
  have hperm : factors.signatures.Perm factors'.signatures :=
    ha.signatures_perm hb (content_eq_of_signature hsame)
  have hdegree :
      (Expr.product coeff 1 factors).degree = (Expr.product coeff 1 factors').degree := by
    have hdegrees := Slots.map_perm (f := factorDegree) hperm fun _ _ _ _ => factorDegree_eq
    cases ha with
    | product _ hslots _ =>
        cases hb with
        | product _ hslots' _ =>
            rw [degree, degree, degree?, degree?, totalDegree?_eq hslots.factor,
              totalDegree?_eq hslots'.factor, hdegrees.sum_eq]
  rw [bag_product, bag_product, total_factorBags_eq h hperm hbag, hdegree]

/-- Canonical expressions of one identity have the same terms. -/
theorem bag_eq (h : style.Keeps order) (ha : Canonical rules a) (hb : Canonical rules b)
    (hsame : a.signature = b.signature) : style.bag a = style.bag b := by
  induction ha generalizing b with
  | number | radical | symbol => rw [eq_of_isLeaf rfl hsame]
  | constantBase _ _ _ _ _ _ ih =>
      have hgroup := group_eq_of_content (content_eq_of_signature hsame)
      cases b <;> simp only [group, reduceCtorEq] at hgroup
      exact bag_eq_of_exponential hsame (fun hbase => by rw [eq_of_isLeaf rfl hbase])
        (ih hb.exponential_parts.2)
  | plainBase _ _ _ _ _ _ ihBase ih =>
      have hgroup := group_eq_of_content (content_eq_of_signature hsame)
      cases b <;> simp only [group, reduceCtorEq] at hgroup
      exact bag_eq_of_exponential hsame (ihBase hb.exponential_parts.1)
        (ih hb.exponential_parts.2)
  | call _ _ _ _ ih =>
      have hgroup := group_eq_of_content (content_eq_of_signature hsame)
      cases b <;> simp only [group, reduceCtorEq] at hgroup
      cases hb with
      | call _ _ _ hargs' =>
          exact bag_eq_of_call hsame fun arg harg arg' harg' => ih arg harg (hargs' arg' harg')
  | polynomial hsum hrules hslots hterms ih =>
      exact bag_eq_of_isSum h (.polynomial hsum hrules hslots hterms) hb hsame rfl
        fun slot hslot slot' hslot' => ih slot hslot (hb.slots slot' hslot')
  | product hcoeff hslots hfactors ih =>
      have hgroup := group_eq_of_content (content_eq_of_signature hsame)
      cases b <;> simp only [group, reduceCtorEq] at hgroup
      have hcanonical := hb
      cases hb with
      | product _ _ hfactors' =>
          exact bag_eq_of_product h (.product hcoeff hslots hfactors) hcanonical hsame
            fun slot hslot slot' hslot' => ih slot hslot (hfactors' slot' hslot')
  | composite hsum hrules hslots hterms ih =>
      exact bag_eq_of_isSum h (.composite hsum hrules hslots hterms) hb hsame rfl
        fun slot hslot slot' hslot' => ih slot hslot (hb.slots slot' hslot')

theorem write_eq_of_signature (h : style.Keeps order) (ha : Canonical rules a)
    (hb : Canonical rules b) (hsame : a.signature = b.signature) :
    style.write a = style.write b := by
  rw [write_eq, write_eq, bag_eq h ha hb hsame]

end Style

/-! ## The four written forms -/

theorem holds_decimalText (value : Rat) :
    (Orderless.oneFault .floatOverflow).holds (Ratio.decimalText value) := by
  intro fault h
  unfold Ratio.decimalText at h
  split_ifs at h
  split at h
  · cases h
  · exact (Except.error.inj h).symm

end ExactAlgebra
