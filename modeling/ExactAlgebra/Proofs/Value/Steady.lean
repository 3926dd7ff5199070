import ExactAlgebra.Proofs.Number.Surd
import ExactAlgebra.Proofs.Value.Union

/-!
# Steady expressions

In steady expressions all powers of a factor with a natural exponent are factors in the same
slot, except that the powers of roots have integral parts and that the imaginary unit has four
powers.  Their formal sums are read up to the value of these integral parts, and this reading
tells steady expressions apart.
-/

namespace ExactAlgebra

open ExactAlgebra.Expr Reduce

/-! ## Steady expressions -/

/-- The roots of a canonical product. -/
def AreSurds (roots : List (Rat × Rat)) : Prop :=
  ∃ groups, IsRootForm 1 groups ∧ roots.Perm (rootsOfGroups groups)

/-- True for a root of a sum: a power with a positive exponent other than one. -/
def Expr.isRootSum (node : Expr) : Bool := node.isAtomSum && decide (0 < node.degreePower)

/-- The terms of a sum, in whatever order. -/
def Slots.termsKey (terms : Slots) : Key := .setOf (Expr.slotsSignatures terms)

/-- A base other than an atom that bears exponents without constant term: a number, or a sum
without roots. -/
def IsBearer (hasRoots : Key → Prop) (base : Expr) : Prop :=
  (base.isExpandedSum = true ∧ ¬ hasRoots (Slots.termsKey base.slots)) ∨
    ∃ value, base = .number value ∧ IsReduced value

/-- The imaginary unit has no powers but the first, minus one has no roots, and all roots of numbers
are of numbers without large primes.  Some sums, known by their terms, have roots; all others bear
symbolic exponents without constant term, as numbers do. -/
def Discipline.rooted (mode : Mode) (hasRoots : Key → Prop) : Discipline where
  constant value := value ≠ 0
  symbol name power := name = mode.imaginary → power = 1
  call _ _ := True
  exponential base exponent :=
    IsAtom mode base ∨ IsBearer hasRoots base ∧ constantTerm exponent = 0
  sum power terms := 0 < power → hasRoots (Slots.termsKey terms)
  radicals := AreSurds

theorem AreSurds.sublist {roots roots' : List (Rat × Rat)} (hsub : roots'.Sublist roots)
    (h : AreSurds roots) : AreSurds roots' := by
  obtain ⟨groups, hform, hperm⟩ := h
  obtain ⟨roots'', hperm', hsub'⟩ := hsub.subperm.trans hperm.subperm
  obtain ⟨groups', hgroups, rfl⟩ := List.sublist_map_iff.mp hsub'
  exact ⟨groups', hform.sublist hgroups, hperm'.symm⟩

theorem AreSurds.isSmooth {roots : List (Rat × Rat)} (h : AreSurds roots) :
    ∀ root ∈ roots, IsSmooth root.1 := by
  obtain ⟨groups, hform, hperm⟩ := h
  exact fun root hroot => hform.isSmooth root (hperm.mem_iff.mp hroot)

/-- A root of a small prime. -/
theorem areSurds_singleton {p : Nat} {power : Rat} (hp : p.Prime) (hle : p ≤ Factor.defaultLimit)
    (hpower : 0 < power ∧ power < 1) : AreSurds [(p, power)] := by
  refine ⟨[(power, p)], ⟨one_pos, ?_, ?_, ?_, ?_, by simp, by simp⟩, .refl _⟩
  · simpa using hpower
  · simpa using hp.two_le
  · simpa using hp.squarefree
  · intro group hgroup q hq hdvd
    obtain rfl := List.mem_singleton.mp hgroup
    exact (Nat.le_of_dvd hp.pos hdvd).trans hle

variable {mode : Mode} {hasRoots : Key → Prop}

theorem Canonical.root_of_prime {p : Nat} {power : Rat} (hp : p.Prime)
    (hle : p ≤ Factor.defaultLimit) (hpower : 0 < power ∧ power < 1) :
    Canonical (.rooted mode hasRoots) (.radical 1 p power) :=
  .radical one_ne_zero (.inl ⟨Rat.den_natCast p, by exact_mod_cast hp.two_le, hpower⟩)
    (areSurds_singleton hp hle hpower)

theorem Discipline.rooted_hereditary (mode : Mode) (hasRoots : Key → Prop) :
    (Discipline.rooted mode hasRoots).Hereditary where
  constant _ hvalue := hvalue
  nothing := ⟨[], isRootForm_nil one_pos, .refl _⟩
  sublist := AreSurds.sublist

theorem Canonical.proper_of_rooted {node : Expr} (h : Canonical (.rooted mode hasRoots) node) :
    Canonical .proper node := by
  induction h with
  | number value => exact .number value
  | radical hcoeff hradical => exact .radical hcoeff hradical trivial
  | symbol hcoeff hpower => exact .symbol hcoeff hpower trivial
  | constantBase hcoeff hzero hone _ _ hnumber ih =>
      exact .constantBase hcoeff hzero hone trivial ih hnumber
  | plainBase hcoeff hplain _ _ _ hnumber ihbase ihexponent =>
      exact .plainBase hcoeff hplain trivial ihbase ihexponent hnumber
  | call hcoeff hpower _ _ ih => exact .call hcoeff hpower trivial ih
  | polynomial hsum _ hslots _ ih => exact .polynomial hsum (fun _ => trivial) hslots ih
  | product hcoeff hslots _ ih => exact .product hcoeff { hslots with radicals := trivial } ih
  | composite hsum _ hslots _ ih =>
      exact .composite hsum (fun _ => trivial) { hslots with constant := hslots.constant } ih

/-! ## Keys of roots -/

/-- The base of the radicals with a given key. -/
def rootBase? : Key → Option Rat
  | .cons (.rational base) rest => if rest = constantMark then some base else none
  | _ => none

/-- The key of the imaginary unit. -/
def imaginaryKey (mode : Mode) : Key := (Expr.named mode.imaginary).multiplicativeKey

theorem rootBase?_eq_some {key : Key} {base : Rat} (h : rootBase? key = some base) :
    key = .cons (.rational base) constantMark := by
  unfold rootBase? at h
  split at h
  · split_ifs at h with hrest
    obtain rfl := Option.some.inj h
    rw [hrest]
  · cases h

@[simp] theorem rootBase?_radical (base : Rat) :
    rootBase? (.cons (.rational base) constantMark) = some base := by
  simp [rootBase?]

theorem rootBase?_imaginaryKey (mode : Mode) : rootBase? (imaginaryKey mode) = none := by
  simp [imaginaryKey, Expr.named, multiplicativeKey, isAtomSum, isSum, baseKey, withPower, content,
    rootBase?, constantMark, Key.tuple]

/-- Roots as exponents of the primes; the imaginary unit is a root of minus one. -/
noncomputable def surdOf? (mode : Mode) (key : Key) : Option (Nat →₀ Rat) :=
  if key = imaginaryKey mode then some (.single 0 (1 / 2)) else (rootBase? key).map Surd.valuations

/-- The exponents under a key: those of a surd, or others. -/
noncomputable def splitKey (mode : Mode) (key : Key) :
    (Key →₀ Rat) →+ (Key →₀ Key →₀ Rat) × (Nat →₀ Rat) :=
  match surdOf? mode key with
  | some surd =>
      (AddMonoidHom.inr _ _).comp
        (((smulAddHom Rat (Nat →₀ Rat)).flip surd).comp (Finsupp.applyAddHom constantMark))
  | none => (AddMonoidHom.inl _ _).comp (Finsupp.singleAddHom key)

/-- The exponents of surds apart from the others. -/
noncomputable def splitSurds (mode : Mode) :
    (Key →₀ Key →₀ Rat) →+ (Key →₀ Key →₀ Rat) × (Nat →₀ Rat) :=
  Finsupp.liftAddHom (splitKey mode)

section

variable {mode : Mode} {key : Key} {e e' : Key →₀ Key →₀ Rat} {f : Key →₀ Rat}

theorem splitSurds_single (key : Key) (f : Key →₀ Rat) :
    splitSurds mode (.single key f) = splitKey mode key f :=
  Finsupp.liftAddHom_apply_single _ _ _

theorem surdOf?_imaginaryKey (mode : Mode) :
    surdOf? mode (imaginaryKey mode) = some (.single 0 (1 / 2)) := if_pos rfl

theorem splitKey_of_surdOf {surd : Nat →₀ Rat} (h : surdOf? mode key = some surd)
    (f : Key →₀ Rat) : splitKey mode key f = (0, f constantMark • surd) := by
  rw [splitKey, h]
  rfl

theorem splitKey_of_none (h : surdOf? mode key = none) (f : Key →₀ Rat) :
    splitKey mode key f = (.single key f, 0) := by
  rw [splitKey, h]
  rfl

theorem splitSurds_fst (h : surdOf? mode key = none) (e : Key →₀ Key →₀ Rat) :
    (splitSurds mode e).1 key = e key := by
  induction e using Finsupp.induction_linear with
  | zero => rw [map_zero]; rfl
  | add e e' he he' => rw [map_add, Prod.fst_add, Finsupp.add_apply, he, he', Finsupp.add_apply]
  | single other f =>
      rw [splitSurds_single]
      cases hother : surdOf? mode other with
      | none => rw [splitKey_of_none hother]
      | some surd =>
          have hne : key ≠ other := by
            rintro rfl
            rw [h] at hother
            cases hother
          rw [splitKey_of_surdOf hother, Finsupp.single_eq_of_ne hne]
          rfl

theorem splitSurds_zero (e : Key →₀ Key →₀ Rat) :
    (splitSurds mode e).2 0 = e (imaginaryKey mode) constantMark / 2 := by
  induction e using Finsupp.induction_linear with
  | zero => simp
  | add e e' he he' =>
      rw [map_add, Prod.snd_add, Finsupp.add_apply, he, he', Finsupp.add_apply, Finsupp.add_apply,
        add_div]
  | single other f =>
      rw [splitSurds_single]
      by_cases hother : other = imaginaryKey mode
      · subst hother
        rw [splitKey_of_surdOf (surdOf?_imaginaryKey mode), Finsupp.single_eq_same]
        simp [div_eq_mul_inv]
      · rw [Finsupp.single_eq_of_ne (Ne.symm hother), Finsupp.zero_apply, zero_div]
        have hsurd : surdOf? mode other = (rootBase? other).map Surd.valuations := if_neg hother
        cases hbase : rootBase? other with
        | none => rw [splitKey_of_none (by rw [hsurd, hbase]; rfl)]; rfl
        | some base =>
            rw [splitKey_of_surdOf (by rw [hsurd, hbase]; rfl), Finsupp.smul_apply,
              Surd.valuations_of_not_prime base Nat.not_prime_zero, smul_zero]

theorem splitSurds_of_not_prime {q : Nat} (hzero : q ≠ 0) (hq : ¬ q.Prime)
    (e : Key →₀ Key →₀ Rat) : (splitSurds mode e).2 q = 0 := by
  induction e using Finsupp.induction_linear with
  | zero => simp
  | add e e' he he' => rw [map_add, Prod.snd_add, Finsupp.add_apply, he, he', add_zero]
  | single other f =>
      rw [splitSurds_single]
      cases hsurd : surdOf? mode other with
      | none => rw [splitKey_of_none hsurd]; rfl
      | some surd =>
          rw [splitKey_of_surdOf hsurd, Finsupp.smul_apply]
          unfold surdOf? at hsurd
          split_ifs at hsurd with hother
          · obtain rfl := Option.some.inj hsurd
            rw [Finsupp.single_eq_of_ne hzero, smul_zero]
          · obtain ⟨base, -, rfl⟩ := Option.map_eq_some_iff.mp hsurd
            rw [Surd.valuations_of_not_prime base hq, smul_zero]

/-! ## Factors -/

/-- Bases and exponents of the radicals among some factors. -/
def rootsIn (factors : List Expr) : List (Rat × Rat) :=
  factors.filterMap fun
    | .radical _ base power => some (base, power)
    | _ => none

variable {factor term : Expr} {list : List Expr}

theorem surdOf?_radical (mode : Mode) (coeff base power : Rat) :
    surdOf? mode (Expr.radical coeff base power).multiplicativeKey =
      some (Surd.valuations base) := by
  have hkey : (Expr.radical coeff base power).multiplicativeKey =
      .cons (.rational base) constantMark := rfl
  have hne : (.cons (.rational base) constantMark : Key) ≠ imaginaryKey mode := fun heq => by
    have hnone := rootBase?_imaginaryKey mode
    rw [← heq, rootBase?_radical] at hnone
    cases hnone
  rw [hkey, surdOf?, if_neg hne, rootBase?_radical]
  rfl

theorem surdOf?_of_isFactor (hfactor : factor.isFactor = true) (hgroup : factor.group ≠ .radical)
    (hkey : factor.multiplicativeKey ≠ imaginaryKey mode) :
    surdOf? mode factor.multiplicativeKey = none := by
  rw [surdOf?, if_neg hkey, Option.map_eq_none_iff]
  by_contra hsome
  obtain ⟨base, hbase⟩ := Option.ne_none_iff_exists'.mp hsome
  exact hgroup (group_of_multiplicativeKey hfactor (rootBase?_eq_some hbase))

/-- The kinds of factors of steady expressions. -/
inductive IsSteady (mode : Mode) (hasRoots : Key → Prop) : Expr → Prop
  | radical (coeff base power : Rat) : IsSteady mode hasRoots (.radical coeff base power)
  | imaginary (coeff : Rat) : IsSteady mode hasRoots (.symbol coeff mode.imaginary 1)
  | atom {factor : Expr} (h : IsAtom mode factor.baseOf) : IsSteady mode hasRoots factor
  | bearer {coeff : Rat} {base exponent : Expr} (hbase : IsBearer hasRoots base)
      (hconstant : constantTerm exponent = 0) :
      IsSteady mode hasRoots (.exponential coeff base exponent)
  | inverse {factor : Expr} (hsum : factor.isAtomSum = true) (hneg : factor.degreePower < 0) :
      IsSteady mode hasRoots factor
  | root {factor : Expr} (hsum : factor.isRootSum = true) : IsSteady mode hasRoots factor

theorem Expr.isRootSum_iff : factor.isRootSum = true ↔
    factor.isAtomSum = true ∧ 0 < factor.degreePower := by
  rw [isRootSum, Bool.and_eq_true, decide_eq_true_iff]

theorem Expr.isAtomSum_of_ne (h : factor.isSum = true) (hpower : factor.degreePower ≠ 1) :
    factor.isAtomSum = true := by
  simpa [isAtomSum, h] using hpower

theorem Expr.isExpandedSum_baseOf (h : factor.isAtomSum = true) :
    factor.baseOf.isExpandedSum = true := by
  cases factor <;> first | rfl | cases h

theorem Expr.slots_baseOf (h : factor.isAtomSum = true) : factor.baseOf.slots = factor.slots := by
  cases factor <;> first | rfl | cases h

theorem Expr.isPowered_of_isAtomSum (h : factor.isAtomSum = true) : factor.isPowered = true := by
  cases factor <;> first | exact h | cases h

/-- Roots of a sum share its slot. -/
theorem Expr.multiplicativeKey_of_isRootSum (h : factor.isRootSum = true) :
    factor.multiplicativeKey = factor.baseOf.signature := by
  obtain ⟨hsum, hpos⟩ := isRootSum_iff.mp h
  rw [multiplicativeKey, if_neg (by simpa using fun _ => hpos.le),
    signature_baseOf_of_isPowered (isPowered_of_isAtomSum hsum)]

theorem Canonical.isSteady (h : Canonical (.rooted mode hasRoots) factor)
    (hfactor : factor.isFactor = true) : IsSteady mode hasRoots factor := by
  have hsum := (isFactor_iff.mp hfactor).2.2
  cases h with
  | number | product => cases hfactor
  | radical => exact .radical _ _ _
  | @symbol coeff name power _ _ hrules =>
      by_cases hname : name = mode.imaginary
      · obtain rfl := hrules hname
        exact hname ▸ .imaginary coeff
      · exact .atom (.named hname)
  | call => exact .atom (.call _ _)
  | constantBase _ _ _ hrules =>
      rcases hrules with hatom | ⟨hbearer, hconstant⟩
      · cases hatom
      · exact .bearer hbearer hconstant
  | plainBase _ _ hrules =>
      rcases hrules with hatom | ⟨hbearer, hconstant⟩
      · exact .atom hatom
      · exact .bearer hbearer hconstant
  | @polynomial coeff power slots hshape | @composite coeff power slots hshape =>
      have hpower : power ≠ 1 := by
        simpa [isExpandedSum, isSum, degreePower] using hsum
      rcases lt_or_gt_of_ne hshape.power_ne_zero with hneg | hpos
      · exact .inverse (isAtomSum_of_ne rfl hpower) hneg
      · exact .root (isRootSum_iff.mpr ⟨isAtomSum_of_ne rfl hpower, hpos⟩)

/-- Only some sums have roots. -/
theorem Canonical.hasRoots_termsKey (h : Canonical (.rooted mode hasRoots) factor)
    (hroot : factor.isRootSum = true) : hasRoots (Slots.termsKey factor.slots) := by
  obtain ⟨hsum, hpos⟩ := isRootSum_iff.mp hroot
  have hpower : factor.degreePower ≠ 1 := by simpa using (Bool.and_eq_true_iff.mp hsum).2
  cases h with
  | polynomial _ hrules | composite _ hrules => exact hrules hpower hpos
  | _ => cases hsum

theorem Expr.termsKey_of_content {a b : Expr} (hsum : a.isExpandedSum = true)
    (h : a.content = b.content) : Slots.termsKey a.slots = Slots.termsKey b.slots := by
  have hgroup := group_eq_of_content h
  cases a <;> simp only [isExpandedSum, isSum, Bool.false_and, Bool.false_eq_true] at hsum <;>
    cases b <;> simp only [group, reduceCtorEq] at hgroup <;>
    simp_all [content, Key.tuple, Slots.termsKey, Expr.slots]

theorem IsBearer.of_signature {a b : Expr} (h : IsBearer hasRoots a)
    (hsame : a.signature = b.signature) : IsBearer hasRoots b := by
  have hcontent := content_eq_of_signature hsame
  rcases h with ⟨hsum, hroots⟩ | ⟨value, rfl, hreduced⟩
  · exact .inl ⟨isExpandedSum_eq_of_content hcontent ▸ hsum,
      termsKey_of_content hsum hcontent ▸ hroots⟩
  · refine .inr ⟨value, ?_, hreduced⟩
    obtain ⟨value', rfl⟩ :=
      exists_eq_number (isNumber_of_content hcontent.symm)
    rw [signature, signature, Key.cons.injEq, Key.rational.injEq] at hsame
    exact congrArg Expr.number hsame.1.symm

/-- Only the imaginary unit itself has its key. -/
theorem Canonical.exists_eq_imaginary (h : Canonical (.rooted mode hasRoots) factor)
    (hfactor : factor.isFactor = true) (hkey : factor.multiplicativeKey = imaginaryKey mode) :
    ∃ coeff, factor = .symbol coeff mode.imaginary 1 := by
  have himaginary : imaginaryKey mode = (Expr.named mode.imaginary).signature := rfl
  rw [himaginary] at hkey
  cases h.isSteady hfactor with
  | radical => cases hkey
  | imaginary coeff => exact ⟨coeff, rfl⟩
  | atom hatom =>
      rw [hatom.multiplicativeKey h hfactor, ← hatom.signature_eq] at hkey
      cases hatom.of_signature hkey with
      | named hname => exact absurd rfl hname
  | bearer hbearer =>
      rw [multiplicativeKey_exponential] at hkey
      split_ifs at hkey
      · cases hkey
      · rcases hbearer.of_signature hkey with ⟨hsum, -⟩ | ⟨value, hvalue, -⟩
        · cases hsum
        · cases hvalue
  | inverse hsum hneg => exact absurd hkey (multiplicativeKey_ne_signature hsum hneg _)
  | root hsum =>
      rw [multiplicativeKey_of_isRootSum hsum] at hkey
      have hsame := isExpandedSum_eq_of_content (content_eq_of_signature hkey)
      rw [isExpandedSum_baseOf (isRootSum_iff.mp hsum).1] at hsame
      cases hsame

/-! ## Terms -/

theorem rootsIn_children (slots : Slots) : rootsIn slots.children = Slots.radicals slots := by
  rw [rootsIn, Slots.children, List.filterMap_map]
  rfl

theorem rootsIn_singleton (hgroup : factor.group ≠ .radical) : rootsIn [factor] = [] := by
  cases factor <;> first | rfl | exact absurd rfl hgroup

theorem Canonical.areSurds (h : Canonical (.rooted mode hasRoots) term) :
    AreSurds (rootsIn term.factors) := by
  have hnothing : AreSurds [] := (Discipline.rooted_hereditary mode hasRoots).nothing
  cases h with
  | radical _ _ hrules => exact hrules
  | product _ hslots => exact rootsIn_children _ ▸ hslots.radicals
  | _ => exact hnothing

theorem exponents_of_mem_rootsIn (hdistinct : (list.map multiplicativeKey).Nodup)
    {root : Rat × Rat} (hroot : root ∈ rootsIn list) :
    exponentsOf list (.cons (.rational root.1) constantMark) = .single constantMark root.2 := by
  obtain ⟨factor, hfactor, hsome⟩ := List.mem_filterMap.mp hroot
  split at hsome
  · obtain rfl := Option.some.inj hsome
    exact (exponentsOf_of_mem hdistinct hfactor).trans (linear_number _)
  · cases hsome

theorem exponents_of_not_mem_rootsIn (hlist : ∀ factor ∈ list, factor.isFactor = true) {base : Rat}
    (hbase : ∀ root ∈ rootsIn list, root.1 ≠ base) :
    exponentsOf list (.cons (.rational base) constantMark) = 0 := by
  refine exponentsOf_of_not_mem fun factor hfactor hkey => ?_
  have hgroup := group_of_multiplicativeKey (hlist factor hfactor) hkey
  cases factor <;> simp only [group, reduceCtorEq] at hgroup
  case radical coeff base' power =>
    refine hbase (base', power) (List.mem_filterMap.mpr ⟨_, hfactor, rfl⟩) ?_
    simpa [multiplicativeKey, isAtomSum, isSum, baseKey] using hkey

theorem splitSurds_prime (hlist : ∀ factor ∈ list, factor.isFactor = true) (q : Nat)
    [hq : Fact q.Prime] :
    (splitSurds mode (exponentsOf list)).2 q = primeExponent q (rootsIn list) := by
  induction list with
  | nil => simp [rootsIn]
  | cons factor rest ih =>
      obtain ⟨hfactor, hrest⟩ := List.forall_mem_cons.mp hlist
      rw [exponentsOf_cons, map_add, Prod.snd_add, Finsupp.add_apply, ih hrest, splitSurds_single]
      by_cases hgroup : factor.group = .radical
      · cases factor <;> simp only [group, reduceCtorEq] at hgroup
        case radical coeff base power =>
          have hroots :
              rootsIn (.radical coeff base power :: rest) = (base, power) :: rootsIn rest := rfl
          have hpower : (Expr.radical coeff base power).exponent.linear constantMark = power :=
            (congrArg (· constantMark) (linear_number power)).trans Finsupp.single_eq_same
          rw [splitKey_of_surdOf (surdOf?_radical mode coeff base power), hroots,
            primeExponent_cons, Finsupp.smul_apply, Surd.valuations_apply, hpower, smul_eq_mul]
      · have hroots : rootsIn (factor :: rest) = rootsIn rest := by
          rw [← List.singleton_append, rootsIn, List.filterMap_append, ← rootsIn,
            rootsIn_singleton hgroup, List.nil_append, rootsIn]
        rw [hroots, add_eq_right]
        by_cases hkey : factor.multiplicativeKey = imaginaryKey mode
        · rw [hkey, splitKey_of_surdOf (surdOf?_imaginaryKey mode), Finsupp.smul_apply,
            Finsupp.single_eq_of_ne hq.out.ne_zero, smul_zero]
        · rw [splitKey_of_none (surdOf?_of_isFactor hfactor hgroup hkey)]
          rfl

theorem Canonical.exponents_imaginaryKey (h : Canonical (.rooted mode hasRoots) term)
    (hsum : term.isExpandedSum = false) : term.exponents (imaginaryKey mode) = 0 ∨
      term.exponents (imaginaryKey mode) = .single constantMark 1 := by
  by_cases hsome : ∃ factor ∈ term.factors, factor.multiplicativeKey = imaginaryKey mode
  · obtain ⟨factor, hfactor, hkey⟩ := hsome
    obtain ⟨hcanonical, hfactorial⟩ := h.factors hsum factor hfactor
    right
    rw [exponents, ← hkey, exponentsOf_of_mem h.nodup_keys hfactor]
    obtain ⟨coeff, rfl⟩ := hcanonical.exists_eq_imaginary hfactorial hkey
    exact linear_number 1
  · push Not at hsome
    exact .inl (exponentsOf_of_not_mem hsome)

/-- No surd of a term has an integral part. -/
theorem Canonical.splitSurds_lt_one (h : Canonical (.rooted mode hasRoots) term)
    (hsum : term.isExpandedSum = false) (q : Nat) :
    0 ≤ (splitSurds mode term.exponents).2 q ∧ (splitSurds mode term.exponents).2 q < 1 := by
  by_cases hzero : q = 0
  · subst hzero
    rw [splitSurds_zero]
    rcases h.exponents_imaginaryKey hsum with heq | heq <;> rw [heq] <;> norm_num
  by_cases hq : q.Prime
  · have : Fact q.Prime := ⟨hq⟩
    obtain ⟨groups, hform, hperm⟩ := h.areSurds
    have hexponent : primeExponent q (rootsIn term.factors) =
        primeExponent q (rootsOfGroups groups) := (hperm.map _).sum_eq
    rw [exponents, splitSurds_prime fun factor hfactor => (h.factors hsum factor hfactor).2,
      hexponent]
    exact primeExponent_groups_lt_one hform q
  · rw [splitSurds_of_not_prime hzero hq]
    norm_num

theorem Canonical.mem_rootsIn_of_splitSurds {a b : Expr} (ha : Canonical (.rooted mode hasRoots) a)
    (hb : Canonical (.rooted mode hasRoots) b) (hasum : a.isExpandedSum = false)
    (hbsum : b.isExpandedSum = false)
    (h : splitSurds mode a.exponents = splitSurds mode b.exponents) {root : Rat × Rat}
    (hroot : root ∈ rootsIn a.factors) : root ∈ rootsIn b.factors := by
  obtain ⟨groups, hform, hperm⟩ := ha.areSurds
  obtain ⟨groups', hform', hperm'⟩ := hb.areSurds
  have hsame : SameExponents (rootsOfGroups groups) (rootsOfGroups groups') := fun q hq => by
    have hprime := congrArg (fun split => split.2 q) h
    rw [exponents, exponents,
      splitSurds_prime fun factor hfactor => (ha.factors hasum factor hfactor).2,
      splitSurds_prime fun factor hfactor => (hb.factors hbsum factor hfactor).2] at hprime
    exact ((hperm.map _).sum_eq.symm.trans hprime).trans (hperm'.map _).sum_eq
  obtain ⟨group, hgroup, rfl⟩ := List.mem_map.mp (hperm.mem_iff.mp hroot)
  exact hperm'.mem_iff.mpr (List.mem_map_of_mem (mem_groups_of_same hform hform' hsame hgroup))

theorem Canonical.exponents_eq_of_splitSurds {a b : Expr} (ha : Canonical (.rooted mode hasRoots) a)
    (hb : Canonical (.rooted mode hasRoots) b) (hasum : a.isExpandedSum = false)
    (hbsum : b.isExpandedSum = false)
    (h : splitSurds mode a.exponents = splitSurds mode b.exponents) :
    a.exponents = b.exponents := by
  refine Finsupp.ext fun key => ?_
  -- keys of surds share the second part of the split, all other keys keep the first for themselves
  cases hsurd : surdOf? mode key with
  | none =>
      have hfst := congrArg (fun split => split.1 key) h
      exact ((splitSurds_fst hsurd _).symm.trans hfst).trans (splitSurds_fst hsurd _)
  | some surd =>
      by_cases hkey : key = imaginaryKey mode
      · subst hkey
        have hzero := congrArg (fun split => split.2 0) h
        rw [splitSurds_zero, splitSurds_zero] at hzero
        rcases ha.exponents_imaginaryKey hasum with hone | hone <;>
          rcases hb.exponents_imaginaryKey hbsum with hother | hother <;>
          rw [hone, hother] at hzero ⊢ <;> norm_num at hzero
      · rw [surdOf?, if_neg hkey] at hsurd
        obtain ⟨base, hbase, -⟩ := Option.map_eq_some_iff.mp hsurd
        obtain rfl := rootBase?_eq_some hbase
        have hafactors : ∀ factor ∈ a.factors, factor.isFactor = true := fun factor hfactor =>
          (ha.factors hasum factor hfactor).2
        have hbfactors : ∀ factor ∈ b.factors, factor.isFactor = true := fun factor hfactor =>
          (hb.factors hbsum factor hfactor).2
        by_cases hsome : ∃ root ∈ rootsIn a.factors, root.1 = base
        · obtain ⟨root, hroot, rfl⟩ := hsome
          have hroot' := ha.mem_rootsIn_of_splitSurds hb hasum hbsum h hroot
          rw [exponents, exponents, exponents_of_mem_rootsIn ha.nodup_keys hroot,
            exponents_of_mem_rootsIn hb.nodup_keys hroot']
        · have hnone : ∀ root ∈ rootsIn b.factors, root.1 ≠ base := fun root hroot hbase =>
            hsome ⟨root, hb.mem_rootsIn_of_splitSurds ha hbsum hasum h.symm hroot, hbase⟩
          push Not at hsome
          rw [exponents, exponents, exponents_of_not_mem_rootsIn hafactors hsome,
            exponents_of_not_mem_rootsIn hbfactors hnone]

end

/-! ## The reading -/

/-- Formal sums up to the value of integral powers of numbers and of the imaginary unit. -/
noncomputable def FormalReading.rooted (mode : Mode) (hasRoots : Key → Prop) :
    FormalReading (Surd.Values (Key →₀ Key →₀ Rat)) where
  rules := .rooted mode hasRoots
  hereditary := Discipline.rooted_hereditary mode hasRoots
  perm hperm := fun ⟨groups, hform, h⟩ => ⟨groups, hform, hperm.symm.trans h⟩
  proper := Canonical.proper_of_rooted
  read := Surd.value.comp (AddMonoidAlgebra.mapDomainAlgHom Rat Rat (splitSurds mode))

section

variable {mode : Mode} {a b node : Expr}

theorem read_single (e : Key →₀ Key →₀ Rat) (c : Rat) :
    (FormalReading.rooted mode hasRoots).read (.single e c) =
      Surd.value (.single (splitSurds mode e) c) := by
  change Surd.value (AddMonoidAlgebra.mapDomain _ _) = _
  rw [AddMonoidAlgebra.mapDomain_single]

/-- The terms of the formal sum of an expression. -/
theorem Canonical.exists_term (h : Canonical (.rooted mode hasRoots) node)
    {e : Key →₀ Key →₀ Rat} (he : node.formal.coeff e ≠ 0) :
    ∃ term ∈ node.terms, Canonical (.rooted mode hasRoots) term ∧ term.isExpandedSum = false ∧
      term.exponents = e := by
  obtain ⟨term, hterm, hexponents⟩ := h.proper_of_rooted.exists_mem_terms_of_coeff_formal he
  exact ⟨term, hterm, h.canonical_of_mem_terms hterm, isExpandedSum_of_mem_terms hterm, hexponents⟩

/-- The formal sum of a steady expression, with its surds apart, is reduced. -/
theorem Canonical.reduce_formal (h : Canonical (.rooted mode hasRoots) node) :
    (Surd.carry _).reduce (node.formal.mapDomain (splitSurds mode)) =
      node.formal.mapDomain (splitSurds mode) := by
  let split := (AddMonoidAlgebra.mapDomainAlgHom Rat Rat (splitSurds mode)).toLinearMap
  refine linearMap_congr (f := (Surd.carry _).reduce ∘ₗ split) (g := split) fun e he => ?_
  obtain ⟨term, -, hterm, hsum, rfl⟩ := h.exists_term he
  obtain ⟨hrest, hwhole⟩ := Surd.parts_of_lt_one (hterm.splitSurds_lt_one hsum)
  generalize node.formal.coeff term.exponents = c
  change (Surd.carry _).reduce (AddMonoidAlgebra.mapDomain _ _) = AddMonoidAlgebra.mapDomain _ _
  rw [AddMonoidAlgebra.mapDomain_single, Surd.reduce_single, hrest, hwhole, mul_one]

/-- Steady expressions are equal if and only if they are read alike. -/
theorem Canonical.equals_iff_read (ha : Canonical (.rooted mode hasRoots) a)
    (hb : Canonical (.rooted mode hasRoots) b) : a.equals b = true ↔
      (FormalReading.rooted mode hasRoots).read a.formal =
        (FormalReading.rooted mode hasRoots).read b.formal := by
  rw [ha.proper_of_rooted.equals_iff_formal hb.proper_of_rooted]
  refine ⟨congrArg _, fun h => ?_⟩
  have hdomain : a.formal.mapDomain (splitSurds mode) = b.formal.mapDomain (splitSurds mode) := by
    rw [← ha.reduce_formal, ← hb.reduce_formal]
    exact (Surd.carry _).value_eq_iff.mp h
  let powers := {e | ∃ term, Canonical (.rooted mode hasRoots) term ∧ term.isExpandedSum = false ∧
    term.exponents = e}
  have hinjective : Set.InjOn (splitSurds mode) powers := by
    rintro _ ⟨term, hterm, htermsum, rfl⟩ _ ⟨term', hterm', htermsum', rfl⟩ hsplit
    exact hterm.exponents_eq_of_splitSurds hterm' htermsum htermsum' hsplit
  have hpowers : ∀ {node : Expr}, Canonical (.rooted mode hasRoots) node →
      (node.formal.coeff.support : Set _) ⊆ powers := fun {node} hnode e he => by
    obtain ⟨term, -, hterm⟩ := hnode.exists_term (Finsupp.mem_support_iff.mp he)
    exact ⟨term, hterm⟩
  exact AddMonoidAlgebra.coeff_injective (Finsupp.mapDomain_injOn powers hinjective (hpowers ha)
    (hpowers hb) (congrArg AddMonoidAlgebra.coeff hdomain))

end

end ExactAlgebra
