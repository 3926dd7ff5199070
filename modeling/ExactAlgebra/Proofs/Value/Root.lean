import ExactAlgebra.Proofs.Canonical.RootProduct
import ExactAlgebra.Proofs.Canonical.Signature
import Mathlib.Analysis.SpecialFunctions.Pow.Real

/-!
# Values of products of roots

The exponents of the primes in a product of rational powers determine its real value, and
they are determined by it.  They also determine the coefficient and the radicals of its
canonical form, so that equal values have equal forms.
-/

namespace ExactAlgebra

/-! ## Exponents and real values -/

section

variable {roots roots' : List (Rat × Rat)} {n : Nat}

/-- The real value of a product of powers. -/
noncomputable def realValue (roots : List (Rat × Rat)) : ℝ :=
  (roots.map fun root => (root.1 : ℝ) ^ (root.2 : ℝ)).prod

/-- A product of powers taken to a common multiple of the denominators of the exponents. -/
def integralPower (n : Nat) (roots : List (Rat × Rat)) : Rat :=
  (roots.map fun root => root.1 ^ (root.2 * (n : Rat)).num).prod

theorem realValue_pos (hroots : ∀ root ∈ roots, 0 < root.1) : 0 < realValue roots := by
  refine List.prod_pos (List.forall_mem_map.mpr fun root hroot => ?_)
  exact Real.rpow_pos_of_pos (by exact_mod_cast hroots root hroot) _

theorem integralPower_pos (hroots : ∀ root ∈ roots, 0 < root.1) : 0 < integralPower n roots := by
  refine List.prod_pos (List.forall_mem_map.mpr fun root hroot => ?_)
  exact zpow_pos (hroots root hroot) _

theorem num_mul_of_den_dvd {power : Rat} (h : power.den ∣ n) :
    ((power * n).num : Rat) = power * n := by
  obtain ⟨k, rfl⟩ := h
  have hcast : power * ((power.den * k : Nat) : Rat) = ((power.num * k : Int) : Rat) := by
    push_cast
    rw [← mul_assoc, Rat.mul_den_eq_num]
  rw [hcast, Rat.num_intCast]

theorem realValue_pow (hroots : ∀ root ∈ roots, 0 < root.1)
    (hn : ∀ root ∈ roots, root.2.den ∣ n) :
    realValue roots ^ n = (integralPower n roots : ℝ) := by
  induction roots with
  | nil => simp [realValue, integralPower]
  | cons root rest ih =>
      obtain ⟨hroot, hrest⟩ := List.forall_mem_cons.mp hroots
      obtain ⟨hden, hdens⟩ := List.forall_mem_cons.mp hn
      have hpos : (0 : ℝ) < root.1 := by exact_mod_cast hroot
      have hpower : ((root.1 : ℝ) ^ (root.2 : ℝ)) ^ n =
          (root.1 : ℝ) ^ (root.2 * (n : Rat)).num := by
        rw [← Real.rpow_mul_natCast hpos.le, ← Real.rpow_intCast]
        congr 1
        exact_mod_cast (num_mul_of_den_dvd hden).symm
      have hih := ih hrest hdens
      simp only [realValue, integralPower, List.map_cons, List.prod_cons] at hih ⊢
      rw [mul_pow, hpower, hih]
      push_cast
      rfl

theorem padicValRat_integralPower (q : Nat) [Fact q.Prime] (hroots : ∀ root ∈ roots, 0 < root.1)
    (hn : ∀ root ∈ roots, root.2.den ∣ n) :
    (padicValRat q (integralPower n roots) : Rat) = n * primeExponent q roots := by
  induction roots with
  | nil => simp [integralPower]
  | cons root rest ih =>
      obtain ⟨hroot, hrest⟩ := List.forall_mem_cons.mp hroots
      obtain ⟨hden, hdens⟩ := List.forall_mem_cons.mp hn
      have hih := ih hrest hdens
      have hpos : 0 < integralPower n rest := integralPower_pos hrest
      simp only [integralPower, List.map_cons, List.prod_cons] at hih hpos ⊢
      rw [padicValRat.mul (zpow_pos hroot _).ne' hpos.ne', padicValRat.zpow]
      push_cast
      rw [num_mul_of_den_dvd hden, hih, primeExponent_cons]
      ring

theorem exists_common_multiple (roots : List (Rat × Rat)) :
    ∃ n : Nat, n ≠ 0 ∧ ∀ root ∈ roots, root.2.den ∣ n := by
  refine ⟨(roots.map fun root => root.2.den).prod, List.prod_ne_zero fun hzero => ?_,
    fun root hroot => List.dvd_prod (List.mem_map.mpr ⟨root, hroot, rfl⟩)⟩
  obtain ⟨root, -, hden⟩ := List.mem_map.mp hzero
  exact root.2.den_nz hden

/-- Two products of powers have one value if each prime has one exponent in both. -/
theorem realValue_eq_iff (hroots : ∀ root ∈ roots, 0 < root.1)
    (hroots' : ∀ root ∈ roots', 0 < root.1) :
    realValue roots = realValue roots' ↔ Reduce.SameExponents roots roots' := by
  obtain ⟨n, hn, hdens⟩ := exists_common_multiple (roots ++ roots')
  obtain ⟨hden, hden'⟩ := List.forall_mem_append.mp hdens
  have hnpos : (n : Rat) ≠ 0 := Nat.cast_ne_zero.mpr hn
  calc realValue roots = realValue roots'
      ↔ realValue roots ^ n = realValue roots' ^ n :=
        (pow_left_inj₀ (realValue_pos hroots).le (realValue_pos hroots').le hn).symm
    _ ↔ integralPower n roots = integralPower n roots' := by
        rw [realValue_pow hroots hden, realValue_pow hroots' hden', Rat.cast_inj]
    _ ↔ ∀ (q : Nat) [Fact q.Prime],
          padicValRat q (integralPower n roots) = padicValRat q (integralPower n roots') :=
        ⟨fun h q _ => by rw [h],
          eq_of_padicValRat_eq (integralPower_pos hroots) (integralPower_pos hroots')⟩
    _ ↔ Reduce.SameExponents roots roots' := by
        refine forall₂_congr fun q _ => ?_
        rw [← @Int.cast_inj Rat, padicValRat_integralPower q hroots hden,
          padicValRat_integralPower q hroots' hden', mul_right_inj' hnpos]

end

namespace Reduce

open ExactAlgebra.Expr

variable {c c' : Rat} {groups groups' : List (Rat × Nat)}

/-! ## Uniqueness of coefficients and groups -/

/-- A prime has the exponent of the group it divides, and none if it divides no group. -/
theorem primeExponent_groups (h : IsRootForm c groups) (q : Nat) [Fact q.Prime] :
    (∃ group ∈ groups, q ∣ group.2 ∧ primeExponent q (rootsOfGroups groups) = group.1) ∨
      ((∀ group ∈ groups, ¬ q ∣ group.2) ∧ primeExponent q (rootsOfGroups groups) = 0) := by
  have hq : q.Prime := Fact.out
  induction groups with
  | nil => exact .inr ⟨by simp, rfl⟩
  | cons group rest ih =>
      obtain ⟨hcoprime, -⟩ := List.pairwise_cons.mp h.coprime
      have hcons : primeExponent q (rootsOfGroups (group :: rest)) =
          group.1 * padicValRat q (group.2 : Rat) + primeExponent q (rootsOfGroups rest) :=
        primeExponent_cons q _ _
      have htwo := h.two_le group List.mem_cons_self
      by_cases hdvd : q ∣ group.2
      · have hone : padicValNat q group.2 = 1 := by
          have hle := (h.squarefree group List.mem_cons_self).natFactorization_le_one q
          have hpos := one_le_padicValNat_of_dvd (by omega) hdvd
          rw [Nat.factorization_def _ hq] at hle
          omega
        have hzero : primeExponent q (rootsOfGroups rest) = 0 := by
          rcases ih (h.sublist (List.sublist_cons_self _ _)) with ⟨other, hother, hdvd', -⟩ | hnone
          · exact absurd (hcoprime other hother)
              (Nat.not_coprime_of_dvd_of_dvd hq.one_lt hdvd hdvd')
          · exact hnone.2
        refine .inl ⟨group, List.mem_cons_self, hdvd, ?_⟩
        rw [hcons, hzero, padicValRat.of_nat, hone]
        simp
      · have hzero : padicValNat q group.2 = 0 := padicValNat.eq_zero_of_not_dvd hdvd
        have hrest : primeExponent q (rootsOfGroups (group :: rest)) =
            primeExponent q (rootsOfGroups rest) := by
          rw [hcons, padicValRat.of_nat, hzero]
          simp
        rw [hrest]
        refine (ih (h.sublist (List.sublist_cons_self _ _))).imp ?_ ?_
        · rintro ⟨other, hother, hother'⟩
          exact ⟨other, List.mem_cons_of_mem _ hother, hother'⟩
        · rintro ⟨hnone, hzero⟩
          exact ⟨List.forall_mem_cons.mpr ⟨hdvd, hnone⟩, hzero⟩

/-- The exponent of a prime in the groups is a fraction. -/
theorem primeExponent_groups_lt_one (h : IsRootForm c groups) (q : Nat) [Fact q.Prime] :
    0 ≤ primeExponent q (rootsOfGroups groups) ∧ primeExponent q (rootsOfGroups groups) < 1 := by
  rcases primeExponent_groups h q with ⟨group, hgroup, -, heq⟩ | ⟨-, heq⟩
  · rw [heq]
    exact ⟨(h.power group hgroup).1.le, (h.power group hgroup).2⟩
  · simp [heq]

/-- The primes in the base of a group are those with its exponent. -/
theorem dvd_iff_primeExponent (h : IsRootForm c groups) {group : Rat × Nat}
    (hgroup : group ∈ groups) (q : Nat) [Fact q.Prime] :
    q ∣ group.2 ↔ primeExponent q (rootsOfGroups groups) = group.1 := by
  have hq : q.Prime := Fact.out
  have : Std.Symm fun a b : Rat × Nat => a.2.Coprime b.2 := ⟨fun _ _ => Nat.Coprime.symm⟩
  rcases primeExponent_groups h q with ⟨other, hother, hdvd, heq⟩ | ⟨hnone, heq⟩
  · rw [heq]
    constructor
    · intro hdvd'
      by_contra hne
      have hcoprime := h.coprime.forall hother hgroup (ne_of_apply_ne Prod.fst hne)
      exact Nat.not_coprime_of_dvd_of_dvd hq.one_lt hdvd hdvd' hcoprime
    · intro hpowers
      rwa [← List.inj_on_of_nodup_map h.powers hother hgroup hpowers]
  · rw [heq]
    exact iff_of_false (hnone group hgroup) (h.power group hgroup).1.ne

/-- The groups of one form are groups of every form with the same fractional exponents. -/
theorem mem_groups_of_same (h : IsRootForm c groups) (h' : IsRootForm c' groups')
    (hsame : SameExponents (rootsOfGroups groups) (rootsOfGroups groups')) {group : Rat × Nat}
    (hgroup : group ∈ groups) : group ∈ groups' := by
  have htwo := h.two_le group hgroup
  have hprime := Nat.minFac_prime (by omega : group.2 ≠ 1)
  have : Fact group.2.minFac.Prime := ⟨hprime⟩
  have hexponent := (dvd_iff_primeExponent h hgroup group.2.minFac).mp (Nat.minFac_dvd _)
  rcases primeExponent_groups h' group.2.minFac with ⟨other, hother, -, heq⟩ | ⟨-, heq⟩
  · have hpower : group.1 = other.1 := by rw [← hexponent, hsame, heq]
    have hfactors : group.2.primeFactors = other.2.primeFactors := by
      ext q
      have htwo' := h'.two_le other hother
      rw [Nat.mem_primeFactors_of_ne_zero (by omega), Nat.mem_primeFactors_of_ne_zero (by omega)]
      refine and_congr_right fun hq => ?_
      have : Fact q.Prime := ⟨hq⟩
      rw [dvd_iff_primeExponent h hgroup, dvd_iff_primeExponent h' hother, hsame q, hpower]
    have hbase : group.2 = other.2 := by
      rw [← Nat.prod_primeFactors_of_squarefree (h.squarefree group hgroup), hfactors,
        Nat.prod_primeFactors_of_squarefree (h'.squarefree other hother)]
    rwa [show group = other from Prod.ext hpower hbase]
  · rw [← hsame, hexponent] at heq
    exact absurd heq (h.power group hgroup).1.ne'

/-- The exponents determine coefficient and groups. -/
theorem IsRootForm.unique (h : IsRootForm c groups) (h' : IsRootForm c' groups')
    (hsame : SameExponents (formRoots c groups) (formRoots c' groups')) :
    c = c' ∧ groups.Perm groups' := by
  have hparts : ∀ (q : Nat) [Fact q.Prime], padicValRat q c = padicValRat q c' ∧
      primeExponent q (rootsOfGroups groups) = primeExponent q (rootsOfGroups groups') := by
    intro q _
    have hq := hsame q
    simp only [formRoots, primeExponent_cons, one_mul] at hq
    obtain ⟨hlow, hhigh⟩ := primeExponent_groups_lt_one h q
    obtain ⟨hlow', hhigh'⟩ := primeExponent_groups_lt_one h' q
    have hvaluation : padicValRat q c = padicValRat q c' := by
      have hlt : (padicValRat q c : Rat) < padicValRat q c' + 1 := by linarith
      have hlt' : (padicValRat q c' : Rat) < padicValRat q c + 1 := by linarith
      have hlt : padicValRat q c < padicValRat q c' + 1 := by exact_mod_cast hlt
      have hlt' : padicValRat q c' < padicValRat q c + 1 := by exact_mod_cast hlt'
      omega
    refine ⟨hvaluation, ?_⟩
    rw [hvaluation] at hq
    linarith
  have hgroups : SameExponents (rootsOfGroups groups) (rootsOfGroups groups') :=
    fun q _ => (hparts q).2
  refine ⟨eq_of_padicValRat_eq h.coefficient h'.coefficient fun q _ => (hparts q).1, ?_⟩
  refine (List.perm_ext_iff_of_nodup (List.Nodup.of_map _ h.powers)
    (List.Nodup.of_map _ h'.powers)).mpr fun group => ?_
  exact ⟨mem_groups_of_same h h' hgroups, mem_groups_of_same h' h fun q _ => (hgroups q).symm⟩

/-! ## Equality of products of roots -/

/-- The identity of the radical of a group. -/
def groupSignature (group : Rat × Nat) : Key := (radicalOf ((group.2 : Rat), group.1)).signature

theorem groupSignature_injective : Function.Injective groupSignature := by
  rintro ⟨power, base⟩ ⟨power', base'⟩ h
  simp only [groupSignature, radicalOf, signature, coeff, content, Key.tuple, Key.cons.injEq,
    Key.rational.injEq, Nat.cast_inj, true_and, and_true] at h
  exact Prod.ext h.2 h.1

/-- The three shapes of a product of roots. -/
theorem content_rootProduct (h : IsRootForm c groups) :
    (groups = [] ∧ (rootProduct c groups).content = constantMark) ∨
      (∃ group, groups = [group] ∧ (rootProduct c groups).content =
        .cons (.group .radical) (.tuple [.rational group.2, .rational group.1])) ∨
      (2 ≤ groups.length ∧ (rootProduct c groups).content =
        .tuple [.group .product, .setOf (groups.map groupSignature), .rational 1]) := by
  match groups with
  | [] => exact .inl ⟨rfl, rfl⟩
  | [group] => exact .inr (.inl ⟨group, rfl, rfl⟩)
  | first :: second :: rest =>
      refine .inr (.inr ⟨by simp, ?_⟩)
      rw [rootProduct_of_two_le h (by simp), content, Slots.slotsSignatures_eq, Slots.signatures,
        keyed, rootsOfGroups, List.map_map, List.map_map, List.map_map]
      rfl

/-- The content of a product of roots is the set of its groups. -/
theorem content_rootProduct_eq_iff (h : IsRootForm c groups) (h' : IsRootForm c' groups') :
    (rootProduct c groups).content = (rootProduct c' groups').content ↔ groups.Perm groups' := by
  rcases content_rootProduct h with ⟨rfl, hcontent⟩ | ⟨group, rfl, hcontent⟩ | ⟨htwo, hcontent⟩ <;>
    rcases content_rootProduct h' with ⟨rfl, hcontent'⟩ | ⟨group', rfl, hcontent'⟩ |
      ⟨htwo', hcontent'⟩ <;>
    rw [hcontent, hcontent']
  case inr.inr.inr.inr =>
    rw [List.perm_ext_iff_of_nodup (List.Nodup.of_map _ h.powers) (List.Nodup.of_map _ h'.powers)]
    simp only [Key.tuple, Key.cons.injEq, Key.setOf_eq_setOf_iff, true_and, and_true]
    constructor
    · intro hkeys group
      have := hkeys (groupSignature group)
      rwa [List.mem_map_of_injective groupSignature_injective,
        List.mem_map_of_injective groupSignature_injective] at this
    · intro hgroups key
      simp only [List.mem_map, hgroups]
  case inr.inl.inr.inl =>
    simp [Key.tuple, Prod.ext_iff, and_comm]
  case inl.inl => simp
  -- other shapes differ in content and in length
  all_goals
    refine iff_of_false (by simp [constantMark, Key.tuple]) fun hperm => ?_
    have hlength := hperm.length_eq
    simp only [List.length_nil, List.length_singleton] at hlength
    omega

theorem coeff_rootProduct (h : IsRootForm c groups) : (rootProduct c groups).coeff = c := by
  by_cases hne : groups = []
  · subst hne
    rfl
  · exact (rootProduct_parts hne h c).2.1

/-- Products of roots are equal exactly if their exponents are. -/
theorem equals_rootProduct_iff (h : IsRootForm c groups) (h' : IsRootForm c' groups') :
    (rootProduct c groups).equals (rootProduct c' groups') = true ↔
      SameExponents (formRoots c groups) (formRoots c' groups') := by
  rw [equals, beq_iff_eq, signature, signature, Key.cons.injEq, Key.rational.injEq,
    coeff_rootProduct h, coeff_rootProduct h', content_rootProduct_eq_iff h h']
  refine ⟨?_, h.unique h'⟩
  rintro ⟨rfl, hperm⟩ q _
  have hroots : (rootsOfGroups groups).Perm (rootsOfGroups groups') := hperm.map _
  rw [formRoots, formRoots, primeExponent_cons, primeExponent_cons, primeExponent, primeExponent,
    (hroots.map _).sum_eq]

end Reduce

namespace Arithmetic

open Reduce ExactAlgebra.Expr

variable {mode : Mode} {roots roots' : List (Rat × Rat)} {node node' : Expr}

/-! ## Multiplying powers -/

/-- The product of some powers, multiplied one after the other. -/
def productOfPowers (mode : Mode) (roots : List (Rat × Rat)) : Except Fault Expr :=
  roots.foldlM (fun node root => do
    multiply mode node (← pow mode (.number root.1) (.number root.2))) (.number 1)

theorem represents_pow (hmode : mode.numeric = false) {base : Rat} (hbase : IsSmoothRatio base)
    (power : Rat) : Represents [(base, power)] (pow mode (.number base) (.number power)) := by
  obtain ⟨fuel, hfuel⟩ := exists_pow_eq mode (.number base) (.number power)
  have hstep : raiseTo mode (fuel + 31) (.number base) (.number power) =
      numberPower mode (fuel + 30) base power := by
    rw [raiseTo.eq_def]
  have hpower : Represents [(base, power)] (numberPower mode (fuel + 30) base power) :=
    represents_numberPower hmode hbase power
  obtain ⟨c, groups, houtcome, hform, hroots⟩ := hpower
  exact ⟨c, groups, by rw [hfuel, hstep, houtcome, guarded_ok], hform, hroots⟩

theorem represents_multiply (hmode : mode.numeric = false) (h : Represents roots (.ok node))
    (h' : Represents roots' (.ok node')) :
    Represents (roots ++ roots') (multiply mode node node') := by
  obtain ⟨fuel, hfuel⟩ := exists_multiply_eq mode node node'
  rw [hfuel]
  exact h.combineFactors hmode h'

theorem represents_productOfPowers (hmode : mode.numeric = false)
    (hroots : ∀ root ∈ roots, IsSmoothRatio root.1) :
    Represents roots (productOfPowers mode roots) := by
  induction roots using List.reverseRecOn with
  | nil =>
      refine (represents_number one_pos).congr fun q _ => ?_
      simp
  | append_singleton rest root ih =>
      obtain ⟨hrest, hroot⟩ := List.forall_mem_append.mp hroots
      rw [productOfPowers, List.foldlM_append]
      refine (ih hrest).bind fun node hnode => ?_
      have hpower := represents_pow hmode (hroot _ (List.mem_singleton_self root)) root.2
      have hstep : (([root] : List (Rat × Rat)).foldlM (fun node root => do
          multiply mode node (← pow mode (.number root.1) (.number root.2))) node) =
            pow mode (.number root.1) (.number root.2) >>= multiply mode node := by
        simp
      rw [hstep]
      exact hpower.bind fun power hpower => represents_multiply hmode hnode hpower

/-- In exact mode two products of powers of positive rationals without large primes are
equal exactly if each prime has the same exponent in both, that is, if their real values
are equal.  Their radicals have different exponents and coprime, squarefree bases. -/
theorem equals_productOfPowers_iff (hmode : mode.numeric = false)
    (hroots : ∀ root ∈ roots, IsSmoothRatio root.1)
    (hroots' : ∀ root ∈ roots', IsSmoothRatio root.1) :
    ∃ node node', productOfPowers mode roots = .ok node ∧
      productOfPowers mode roots' = .ok node' ∧
      (node.equals node' = true ↔
        ∀ q : Nat, q.Prime → primeExponent q roots = primeExponent q roots') ∧
      (node.equals node' = true ↔ realValue roots = realValue roots') ∧
      ∃ c groups, node = rootProduct c groups ∧ IsRootForm c groups := by
  obtain ⟨c, groups, hnode, hform, hsame⟩ := represents_productOfPowers hmode hroots
  obtain ⟨c', groups', hnode', hform', hsame'⟩ := represents_productOfPowers hmode hroots'
  have hequals : (rootProduct c groups).equals (rootProduct c' groups') = true ↔
      SameExponents roots roots' := by
    rw [equals_rootProduct_iff hform hform']
    exact forall₂_congr fun q _ => by rw [hsame q, hsame' q]
  refine ⟨_, _, hnode, hnode', hequals.trans ?_, hequals.trans ?_, c, groups, rfl, hform⟩
  · exact ⟨fun h q hq => @h q ⟨hq⟩, fun h q hq => h q hq.out⟩
  · exact (realValue_eq_iff (fun root hroot => (hroots root hroot).1)
      fun root hroot => (hroots' root hroot).1).symm

theorem equals_productOfPowers_iff_two :
    let roots : List (Rat × Rat) := [(8, 1 / 2), (1 / 2, 1 / 3)]
    let roots' : List (Rat × Rat) := [(2, 7 / 6)]
    Mode.exact.numeric = false ∧ (∀ root ∈ roots, IsSmoothRatio root.1) ∧
      (∀ root ∈ roots', IsSmoothRatio root.1) ∧
      ∃ node node', productOfPowers .exact roots = .ok node ∧
        productOfPowers .exact roots' = .ok node' ∧
        (node.equals node' = true ↔
          ∀ q : Nat, q.Prime → primeExponent q roots = primeExponent q roots') ∧
        (node.equals node' = true ↔ realValue roots = realValue roots') ∧
        ∃ c groups, node = rootProduct c groups ∧ IsRootForm c groups := by
  intro roots roots'
  have hroots : ∀ root ∈ roots, IsSmoothRatio root.1 := by
    simp only [roots, List.forall_mem_cons, List.not_mem_nil, false_imp_iff, implies_true, and_true]
    exact ⟨isSmoothRatio_of_le (by norm_num) (by decide) (by decide),
      isSmoothRatio_of_le (by norm_num) (by decide +kernel) (by decide +kernel)⟩
  have hroots' : ∀ root ∈ roots', IsSmoothRatio root.1 := by
    simp only [roots', List.forall_mem_cons, List.not_mem_nil, false_imp_iff, implies_true,
      and_true]
    exact isSmoothRatio_of_le (by norm_num) (by decide) (by decide)
  exact ⟨rfl, hroots, hroots', equals_productOfPowers_iff rfl hroots hroots'⟩

end Arithmetic

end ExactAlgebra
