import ExactAlgebra.Proofs.Canonical.Unique
import ExactAlgebra.Proofs.Value.Tree

/-!
# Polynomials with rational exponents

A tree of sums, products and natural powers over rational powers of variables denotes a
polynomial with rational exponents.  The exact operations give equal expressions for two
such trees if and only if the trees denote the same polynomial.
-/

namespace ExactAlgebra

open ExactAlgebra.Expr

/-- Polynomials with rational coefficients and rational exponents. -/
abbrev RationalPolynomial := AddMonoidAlgebra ℚ (String →₀ ℚ)

/-! ## The polynomials of trees -/

namespace Tree

/-- A tree without divisors, without the imaginary unit and without exponents zero, in which
compound bases have positive exponents. -/
def IsPolynomial (mode : Mode) : Tree → Prop
  | .constant _ => True
  | .variable name => name ≠ mode.imaginary
  | .power name exponent => name ≠ mode.imaginary ∧ exponent ≠ 0
  | .add a b | .subtract a b | .multiply a b => a.IsPolynomial mode ∧ b.IsPolynomial mode
  | .negate a => a.IsPolynomial mode
  | .divide _ _ => False
  | .raise a exponent => a.IsPolynomial mode ∧ 1 ≤ exponent

/-- The polynomial of a tree. -/
noncomputable def polynomial : Tree → RationalPolynomial
  | .constant value => algebraMap ℚ RationalPolynomial value
  | .variable name => .single (.single name 1) 1
  | .power name exponent => .single (.single name exponent) 1
  | .add a b => a.polynomial + b.polynomial
  | .subtract a b => a.polynomial - b.polynomial
  | .negate a => -a.polynomial
  | .multiply a b => a.polynomial * b.polynomial
  | .divide _ _ => 0
  | .raise a exponent => a.polynomial ^ exponent.toNat

/-- All exponents of variables are natural. -/
def IsNatural : Tree → Prop
  | .constant _ | .variable _ => True
  | .power _ exponent => exponent.den = 1 ∧ 0 ≤ exponent
  | .add a b | .subtract a b | .multiply a b | .divide a b => a.IsNatural ∧ b.IsNatural
  | .negate a | .raise a _ => a.IsNatural

/-- The polynomial of a tree with natural exponents. -/
noncomputable def mvPolynomial : Tree → MvPolynomial String ℚ
  | .constant value => MvPolynomial.C value
  | .variable name => MvPolynomial.X name
  | .power name exponent => MvPolynomial.X name ^ exponent.num.toNat
  | .add a b => a.mvPolynomial + b.mvPolynomial
  | .subtract a b => a.mvPolynomial - b.mvPolynomial
  | .negate a => -a.mvPolynomial
  | .multiply a b => a.mvPolynomial * b.mvPolynomial
  | .divide _ _ => 0
  | .raise a exponent => a.mvPolynomial ^ exponent.toNat

/-- Natural exponents as rational exponents. -/
noncomputable def embed : MvPolynomial String ℚ →+* RationalPolynomial :=
  AddMonoidAlgebra.mapDomainRingHom ℚ (Finsupp.mapRange.addMonoidHom (Nat.castAddMonoidHom ℚ))

theorem embed_injective : Function.Injective embed :=
  AddMonoidAlgebra.mapDomain_injective
    (Finsupp.mapRange_injective _ Nat.cast_zero Nat.cast_injective)

theorem embed_X (name : String) :
    embed (MvPolynomial.X name) = .single (.single name 1) 1 := by
  change AddMonoidAlgebra.mapDomain _ (AddMonoidAlgebra.single (Finsupp.single name 1) 1) = _
  rw [AddMonoidAlgebra.mapDomain_single]
  simp

theorem embed_C (value : ℚ) :
    embed (MvPolynomial.C value) = algebraMap ℚ RationalPolynomial value := by
  change AddMonoidAlgebra.mapDomain _ (AddMonoidAlgebra.single 0 value) = _
  rw [AddMonoidAlgebra.mapDomain_single, map_zero]
  rfl

theorem embed_mvPolynomial {tree : Tree} (h : tree.IsNatural) :
    embed tree.mvPolynomial = tree.polynomial := by
  induction tree with
  | constant value => exact embed_C value
  | «variable» name => exact embed_X name
  | power name exponent =>
      obtain ⟨hden, hnonneg⟩ := h
      have hcast : ((exponent.num.toNat : ℕ) : ℚ) = exponent := by
        have hnum : (0 : ℤ) ≤ exponent.num := Rat.num_nonneg.mpr hnonneg
        have : ((exponent.num.toNat : ℕ) : ℚ) = exponent.num := by
          exact_mod_cast Int.toNat_of_nonneg hnum
        rw [this, (Rat.den_eq_one_iff exponent).mp hden]
      rw [mvPolynomial, polynomial, map_pow, embed_X, AddMonoidAlgebra.single_pow, one_pow,
        Finsupp.smul_single, nsmul_eq_mul, mul_one, hcast]
  | add a b iha ihb => rw [mvPolynomial, polynomial, map_add, iha h.1, ihb h.2]
  | subtract a b iha ihb => rw [mvPolynomial, polynomial, map_sub, iha h.1, ihb h.2]
  | negate a iha => rw [mvPolynomial, polynomial, map_neg, iha h]
  | multiply a b iha ihb => rw [mvPolynomial, polynomial, map_mul, iha h.1, ihb h.2]
  | divide a b => exact map_zero embed
  | raise a exponent iha => rw [mvPolynomial, polynomial, map_pow, iha h]

end Tree

/-! ## The interpretation by monomials -/

namespace Interpretation

variable {mode : Mode} {a b node : Expr}

/-- Powers of variables as monomials; sums have no negative powers. -/
noncomputable def monomials (mode : Mode) : Interpretation mode RationalPolynomial where
  valid name _ := name ≠ mode.imaginary
  symbol name p := .single (.single name p) 1
  unit _ := False
  raise x _ := x
  ne_imaginary h := h
  symbol_add := by
    intro name p q hname _ _
    refine ⟨hname, ?_⟩
    rw [AddMonoidAlgebra.single_mul_single, ← Finsupp.single_add, mul_one]
  symbol_cancel := by
    intro name p q _ _ hzero
    rw [AddMonoidAlgebra.single_mul_single, ← Finsupp.single_add, hzero, Finsupp.single_zero,
      mul_one, AddMonoidAlgebra.one_def]
  symbol_neg := fun _ h => h.elim
  unit_mul := fun h => h.elim
  raise_one _ := rfl
  raise_neg := fun h => h.elim

theorem denotes_polynomial {tree : Tree} (h : tree.IsPolynomial mode) :
    (monomials mode).Denotes tree tree.polynomial := by
  induction tree with
  | constant value => exact .constant value
  | «variable» name => exact .variable (I := monomials mode) h
  | power name exponent => exact .power (I := monomials mode) h.2 h.1
  | add a b iha ihb => exact .add (iha h.1) (ihb h.2)
  | subtract a b iha ihb => exact .subtract (iha h.1) (ihb h.2)
  | negate a iha => exact .negate (iha h)
  | multiply a b iha ihb => exact .multiply (iha h.1) (ihb h.2)
  | divide => exact h.elim
  | raise a exponent iha =>
      obtain ⟨ha, hone⟩ := h
      obtain ⟨k, rfl⟩ := Int.eq_ofNat_of_zero_le (show 0 ≤ exponent by omega)
      refine .raise (iha ha) (fun hneg => by omega) (fun hzero => by omega) ?_
      rw [IsIntegralPower.natCast_iff, Tree.polynomial, Int.toNat_natCast]

/-! ## Monomials -/

/-- The exponent vector of a list of powers of variables. -/
noncomputable def exponentVector (powers : List (String × ℚ)) : String →₀ ℚ :=
  (powers.map fun power => Finsupp.single power.1 power.2).sum

/-- The exponents other than zero of different variables. -/
structure IsMonomial (powers : List (String × ℚ)) : Prop where
  distinct : (powers.map Prod.fst).Nodup
  ne_zero : ∀ power ∈ powers, power.2 ≠ 0

theorem exponentVector_cons (power : String × ℚ) (rest : List (String × ℚ)) :
    exponentVector (power :: rest) = Finsupp.single power.1 power.2 + exponentVector rest := by
  simp [exponentVector]

theorem exponentVector_of_not_mem {powers : List (String × ℚ)} {name : String}
    (h : name ∉ powers.map Prod.fst) : exponentVector powers name = 0 := by
  induction powers with
  | nil => rfl
  | cons power rest ih =>
      rw [List.map_cons, List.mem_cons, not_or] at h
      rw [exponentVector_cons, Finsupp.add_apply, ih h.2,
        Finsupp.single_eq_of_ne h.1, add_zero]

theorem exponentVector_of_mem {powers : List (String × ℚ)} {power : String × ℚ}
    (hdistinct : (powers.map Prod.fst).Nodup) (h : power ∈ powers) :
    exponentVector powers power.1 = power.2 := by
  induction powers with
  | nil => simp at h
  | cons first rest ih =>
      rw [List.map_cons, List.nodup_cons] at hdistinct
      rw [exponentVector_cons, Finsupp.add_apply]
      rcases List.mem_cons.mp h with rfl | hrest
      · rw [Finsupp.single_eq_same, exponentVector_of_not_mem hdistinct.1, add_zero]
      · have hne : power.1 ≠ first.1 := by
          rintro heq
          exact hdistinct.1 (heq ▸ List.mem_map_of_mem hrest)
        rw [Finsupp.single_eq_of_ne hne, zero_add, ih hdistinct.2 hrest]

theorem IsMonomial.mem_iff {powers : List (String × ℚ)} (h : IsMonomial powers)
    {power : String × ℚ} :
    power ∈ powers ↔ power.2 ≠ 0 ∧ exponentVector powers power.1 = power.2 := by
  constructor
  · exact fun hmem => ⟨h.ne_zero power hmem, exponentVector_of_mem h.distinct hmem⟩
  · rintro ⟨hne, hvalue⟩
    have hname : power.1 ∈ powers.map Prod.fst := by
      by_contra hname
      exact hne (hvalue ▸ exponentVector_of_not_mem hname)
    obtain ⟨other, hother, hsame⟩ := List.mem_map.mp hname
    have hpower : other.2 = power.2 := by
      rw [← exponentVector_of_mem h.distinct hother, hsame, hvalue]
    rwa [← Prod.ext hsame hpower]

theorem IsMonomial.perm {powers powers' : List (String × ℚ)} (h : IsMonomial powers)
    (h' : IsMonomial powers') (hvector : exponentVector powers = exponentVector powers') :
    powers.Perm powers' := by
  refine (List.perm_ext_iff_of_nodup (List.Nodup.of_map _ h.distinct)
    (List.Nodup.of_map _ h'.distinct)).mpr fun power => ?_
  rw [h.mem_iff, h'.mem_iff, hvector]

/-- The content of a product of powers of variables. -/
def monomialContent : List (String × ℚ) → Key
  | [] => constantMark
  | [power] => (Expr.symbol 1 power.1 power.2).content
  | powers => .tuple [.group .product,
      .setOf (powers.map fun power => (Expr.symbol 1 power.1 power.2).signature), .rational 1]

theorem monomialContent_of_two_le {powers : List (String × ℚ)} (h : 2 ≤ powers.length) :
    monomialContent powers = .tuple [.group .product,
      .setOf (powers.map fun power => (Expr.symbol 1 power.1 power.2).signature), .rational 1] := by
  match powers with
  | [] | [_] => simp at h
  | first :: second :: rest => rfl

theorem monomialContent_perm {powers powers' : List (String × ℚ)} (h : powers.Perm powers') :
    monomialContent powers = monomialContent powers' := by
  match powers with
  | [] => rw [h.symm.eq_nil]
  | [power] => rw [List.perm_singleton.mp h.symm]
  | first :: second :: rest =>
      have htwo : 2 ≤ (first :: second :: rest).length := by simp
      have hset := Key.setOf_eq_setOf_iff.mpr fun key =>
        (h.map fun power => (Expr.symbol 1 power.1 power.2).signature).mem_iff (a := key)
      rw [monomialContent_of_two_le htwo, monomialContent_of_two_le (h.length_eq ▸ htwo), hset]

/-! ## Terms -/

/-- The powers of variables in a term. -/
def powers : Expr → List (String × ℚ)
  | .symbol _ name p => [(name, p)]
  | .product _ _ factors => factors.filterMap fun slot =>
      match slot.2 with
      | .symbol _ name p => some (name, p)
      | _ => none
  | _ => []

theorem exists_symbol_of_isPower (h : (monomials mode).IsPower node) :
    ∃ name p, node = .symbol 1 name p ∧ p ≠ 0 := by
  cases h with
  | symbol hp _ => exact ⟨_, _, rfl, hp⟩
  | sum _ _ _ hunit => exact hunit.elim

theorem powers_product {factors : Slots}
    (h : ∀ slot ∈ factors, (monomials mode).IsPower slot.2) (c p : ℚ) :
    (powers (.product c p factors)).map (fun power => Expr.symbol 1 power.1 power.2) =
      factors.children := by
  induction factors with
  | nil => rfl
  | cons slot rest ih =>
      obtain ⟨hslot, hrest⟩ := List.forall_mem_cons.mp h
      obtain ⟨name, q, hsymbol, -⟩ := exists_symbol_of_isPower hslot
      have htail := ih hrest
      simp only [powers, Slots.children, List.filterMap_cons, hsymbol, List.map_cons] at htail ⊢
      rw [htail]

theorem isMonomial_powers_product {factors : Slots}
    (hslots : IsProduct (monomials mode).rules factors)
    (h : ∀ slot ∈ factors, (monomials mode).IsPower slot.2) (c p : ℚ) :
    IsMonomial (powers (.product c p factors)) := by
  have hpowers := powers_product h c p
  constructor
  · have hkeys : (factors.children.map multiplicativeKey).Nodup := by
      have hkey : factors.children.map multiplicativeKey = factors.map Prod.fst := by
        rw [Slots.children, List.map_map]
        exact List.map_congr_left fun slot hslot => (hslots.key slot hslot).symm
      rw [hkey]
      exact hslots.distinct
    rw [← hpowers, List.map_map] at hkeys
    have hnames : (powers (.product c p factors)).map
        (multiplicativeKey ∘ fun power => Expr.symbol 1 power.1 power.2) =
        ((powers (.product c p factors)).map Prod.fst).map
          fun name => (Expr.symbol 1 name 1).multiplicativeKey := by
      rw [List.map_map]
      rfl
    rw [hnames] at hkeys
    exact List.Nodup.of_map _ hkeys
  · intro power hpower
    have hmem : Expr.symbol 1 power.1 power.2 ∈ factors.children := by
      rw [← hpowers]
      exact List.mem_map_of_mem (f := fun power => Expr.symbol 1 power.1 power.2) hpower
    obtain ⟨slot, hslot, hsymbol⟩ := List.mem_map.mp hmem
    obtain ⟨name, q, hq, hne⟩ := exists_symbol_of_isPower (h slot hslot)
    rw [hq, Expr.symbol.injEq] at hsymbol
    rw [← hsymbol.2.2]
    exact hne

/-- A term is a monomial, which its content and its value show. -/
structure IsTerm (mode : Mode) (node : Expr) (powers : List (String × ℚ)) : Prop where
  monomial : IsMonomial powers
  content : node.content = monomialContent powers
  value : (monomials mode).value (node.withCoeff 1) = .single (exponentVector powers) 1

theorem value_list_prod (powers : List (String × ℚ)) :
    ((powers.map fun power => Expr.symbol 1 power.1 power.2).map (monomials mode).value).prod =
      .single (exponentVector powers) 1 := by
  induction powers with
  | nil => exact AddMonoidAlgebra.one_def
  | cons power rest ih =>
      rw [List.map_cons, List.map_cons, List.prod_cons, ih, exponentVector_cons, value_symbol,
        one_smul]
      change AddMonoidAlgebra.single _ 1 * _ = _
      rw [AddMonoidAlgebra.single_mul_single, mul_one]

theorem exists_isTerm (h : Canonical (monomials mode).rules node)
    (hsum : node.isExpandedSum = false) : ∃ powers, IsTerm mode node powers := by
  cases hnumber : node.isNumber with
  | true =>
      obtain ⟨c, rfl⟩ := eq_number_of_isNumber hnumber
      refine ⟨[], ⟨List.nodup_nil, by simp⟩, rfl, ?_⟩
      rw [withCoeff, value_number, map_one]
      exact AddMonoidAlgebra.one_def
  | false =>
      rcases (monomials mode).term_cases h hsum hnumber with
        hpower | ⟨factors, hproduct, hslots, hfactors⟩
      · obtain ⟨name, p, hsymbol, hp⟩ := exists_symbol_of_isPower hpower
        refine ⟨[(name, p)], ⟨by simp, by simpa using hp⟩, ?_, ?_⟩
        · rw [← content_withCoeff 1 node, hsymbol, monomialContent]
        · rw [hsymbol, value_symbol, one_smul, exponentVector]
          simp only [List.map_cons, List.map_nil, List.sum_singleton]
          rfl
      · have hpowers := (monomials mode).isPower_of_mem hslots hfactors
        have hchildren := powers_product hpowers 1 1
        refine ⟨_, isMonomial_powers_product hslots hpowers 1 1, ?_, ?_⟩
        · have htwo : 2 ≤ (powers (.product 1 1 factors)).length := by
            have hlength := congrArg List.length hchildren
            rw [List.length_map, Slots.children, List.length_map] at hlength
            rw [hlength]
            exact hslots.two_le
          have hsignatures : (powers (.product 1 1 factors)).map
              (fun power => (Expr.symbol 1 power.1 power.2).signature) =
              Slots.signatures factors := by
            have hmap := congrArg (List.map signature) hchildren
            rwa [List.map_map, Slots.children, List.map_map] at hmap
          rw [← content_withCoeff 1 node, hproduct, monomialContent_of_two_le htwo, hsignatures,
            content, Slots.slotsSignatures_eq]
        · rw [hproduct, value_product, one_smul, ← value_list_prod, hchildren, productValue_eq,
            Slots.children, List.map_map]
          rfl

theorem content_eq_of_exponentVector {powers powers' : List (String × ℚ)}
    (ha : IsTerm mode a powers) (hb : IsTerm mode b powers')
    (h : exponentVector powers = exponentVector powers') : a.content = b.content := by
  rw [ha.content, hb.content, monomialContent_perm (ha.monomial.perm hb.monomial h)]

/-! ## Sums -/

variable {term : Expr}

theorem coeff_value_of_isTerm {powers powers' : List (String × ℚ)}
    (hterm : IsTerm mode term powers) (hnode : IsTerm mode node powers')
    (hcanonical : Canonical (monomials mode).rules term) (h : Canonical (monomials mode).rules node)
    (hsum : node.isExpandedSum = false) :
    ((monomials mode).value node).coeff (exponentVector powers) = node.linear term.content := by
  rw [(monomials mode).value_eq_smul node, hnode.value, linear_of_not_isExpandedSum hsum,
    AddMonoidAlgebra.coeff_smul_apply, AddMonoidAlgebra.coeff_single, smul_eq_mul]
  by_cases hvector : exponentVector powers' = exponentVector powers
  · rw [hvector, content_eq_of_exponentVector hnode hterm hvector, Finsupp.single_eq_same,
      Finsupp.single_eq_same, mul_one]
  · have hcontent : term.content ≠ node.content := by
      intro hcontent
      have hvalue := (monomials mode).value_eq_of_content h hcanonical hcontent.symm
      rw [hnode.value, hterm.value] at hvalue
      exact hvector ((AddMonoidAlgebra.single_left_inj one_ne_zero).mp hvalue)
    rw [Finsupp.single_eq_of_ne (Ne.symm hvector), Finsupp.single_eq_of_ne hcontent, mul_zero]

/-- The coefficients of the polynomial are those of the terms. -/
theorem coeff_value {powers : List (String × ℚ)} (hterm : IsTerm mode term powers)
    (hcanonical : Canonical (monomials mode).rules term)
    (h : Canonical (monomials mode).rules node) :
    ((monomials mode).value node).coeff (exponentVector powers) = node.linear term.content := by
  induction node using slots_induction with
  | step node ih =>
      cases hsum : node.isExpandedSum with
      | false =>
          obtain ⟨powers', hnode⟩ := exists_isTerm h hsum
          exact coeff_value_of_isTerm hterm hnode hcanonical h hsum
      | true =>
          rw [(monomials mode).value_of_isExpandedSum h hsum, linear_of_isExpandedSum hsum]
          have hslots := fun slot hslot => ih slot hslot (h.slots slot hslot)
          generalize node.slots = slots at hslots
          induction slots with
          | nil => rfl
          | cons slot rest ihrest =>
              obtain ⟨hslot, hrest⟩ := List.forall_mem_cons.mp hslots
              rw [sumValue, Slots.linear_cons, AddMonoidAlgebra.coeff_add, Finsupp.add_apply,
                Finsupp.add_apply, hslot, ihrest hrest]

theorem linear_eq_of_value (ha : Canonical (monomials mode).rules a)
    (hb : Canonical (monomials mode).rules b)
    (h : (monomials mode).value a = (monomials mode).value b) : a.linear = b.linear := by
  refine Finsupp.ext fun c => ?_
  by_cases hterm : ∃ term, Canonical (monomials mode).rules term ∧
      term.isExpandedSum = false ∧ term.content = c
  · obtain ⟨term, hcanonical, hsum, rfl⟩ := hterm
    obtain ⟨powers, hpowers⟩ := exists_isTerm hcanonical hsum
    rw [← coeff_value hpowers hcanonical ha, ← coeff_value hpowers hcanonical hb, h]
  · have hzero : ∀ {node : Expr}, Canonical (monomials mode).rules node → node.linear c = 0 :=
      fun hnode => by_contra fun hne => hterm (hnode.exists_canonical_of_linear_ne_zero hne)
    rw [hzero ha, hzero hb]

theorem equals_iff_value (ha : Canonical (monomials mode).rules a)
    (hb : Canonical (monomials mode).rules b) :
    a.equals b = true ↔ (monomials mode).value a = (monomials mode).value b := by
  rw [equals, beq_iff_eq]
  constructor
  · intro h
    rw [(monomials mode).value_eq_smul a, (monomials mode).value_eq_smul b,
      coeff_eq_of_signature h,
      (monomials mode).value_eq_of_content ha hb (content_eq_of_signature h)]
  · exact fun h => ha.signature_eq_of_linear (fun _ hne => hne) hb (linear_eq_of_value ha hb h)

end Interpretation

/-- Two trees of polynomial operations evaluate to equal expressions if and only if they
denote the same polynomial. -/
theorem Tree.evaluate_equals_iff {mode : Mode} {a b : Tree} (ha : a.IsPolynomial mode)
    (hb : b.IsPolynomial mode) : ∃ x y, a.evaluate mode = .ok x ∧ b.evaluate mode = .ok y ∧
      (x.equals y = true ↔ a.polynomial = b.polynomial) ∧
      (a.IsNatural → b.IsNatural → (x.equals y = true ↔ a.mvPolynomial = b.mvPolynomial)) := by
  obtain ⟨x, hxok, hx, hxvalue⟩ :=
    (Interpretation.monomials mode).results_evaluate (Interpretation.denotes_polynomial ha)
  obtain ⟨y, hyok, hy, hyvalue⟩ :=
    (Interpretation.monomials mode).results_evaluate (Interpretation.denotes_polynomial hb)
  have hequals := Interpretation.equals_iff_value hx hy
  rw [hxvalue, hyvalue] at hequals
  refine ⟨x, y, hxok, hyok, hequals, fun hanatural hbnatural => ?_⟩
  rw [hequals, ← embed_mvPolynomial hanatural, ← embed_mvPolynomial hbnatural]
  exact embed_injective.eq_iff

theorem Tree.evaluate_equals_iff_square :
    let x := Tree.variable "x"
    let root := Tree.power "x" (1 / 2)
    let square := Tree.raise (.add root (.constant 1)) 2
    let expanded := Tree.add (.add x (.multiply (.constant 2) root)) (.constant 1)
    square.IsPolynomial .exact ∧ expanded.IsPolynomial .exact ∧
      ∃ node other, square.evaluate .exact = .ok node ∧ expanded.evaluate .exact = .ok other ∧
        node.equals other = true := by
  have hsquare : (Tree.raise (.add (.power "x" (1 / 2)) (.constant 1)) 2).IsPolynomial .exact := by
    norm_num [Tree.IsPolynomial, Mode.exact]
    decide
  have hexpanded : (Tree.add (.add (.variable "x") (.multiply (.constant 2) (.power "x" (1 / 2))))
      (.constant 1)).IsPolynomial .exact := by
    norm_num [Tree.IsPolynomial, Mode.exact]
    decide
  obtain ⟨node, other, hok, hotherok, hequals, -⟩ := Tree.evaluate_equals_iff hsquare hexpanded
  refine ⟨hsquare, hexpanded, node, other, hok, hotherok, hequals.mpr ?_⟩
  have hroot : (AddMonoidAlgebra.single (Finsupp.single "x" (1 / 2)) 1 : RationalPolynomial) ^ 2 =
      .single (.single "x" 1) 1 := by
    rw [AddMonoidAlgebra.single_pow, Finsupp.smul_single]
    norm_num
  have htwo : (2 : ℤ).toNat = 2 := rfl
  simp only [Tree.polynomial, ← hroot, map_one, map_ofNat, htwo]
  ring

end ExactAlgebra
