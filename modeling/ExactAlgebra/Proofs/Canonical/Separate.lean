import ExactAlgebra.Proofs.Canonical.Radical

/-!
# Separate radicals

The radicals that stand in one product have different exponents, and no small prime
divides two of their bases or one base twice.  If all primes in the bases are small,
such radicals combine to themselves.
-/

namespace ExactAlgebra.Reduce

variable {mode : Mode} {roots : List (Rat × Rat)} {exponents : Exponents} {n : Nat} {p : Rat}

/-! ## Separate bases -/

def Apart (a b : Rat × Rat) : Prop :=
  (a.1 = -1 → b.1 ≠ -1) ∧ (a.2 = b.2 → a.1 = -1 ∨ b.1 = -1) ∧
    ∀ q : Nat, q.Prime → q ≤ Factor.defaultLimit → q ∣ a.1.num.natAbs → ¬ q ∣ b.1.num.natAbs

theorem Apart.symm {a b : Rat × Rat} (h : Apart a b) : Apart b a := by
  obtain ⟨hminus, hpower, hprime⟩ := h
  refine ⟨fun hb ha => hminus ha hb, fun heq => (hpower heq.symm).symm, ?_⟩
  intro q hq hlimit hb ha
  exact hprime q hq hlimit ha hb

theorem Apart.ne {a b : Rat × Rat} (h : Apart a b) : a ≠ b := by
  rintro rfl
  rcases h.2.1 rfl with hminus | hminus <;> exact h.1 hminus hminus

instance : Std.Symm Apart := ⟨fun _ _ => Apart.symm⟩

/-- Radicals that no operation on products brings together. -/
structure IsSeparate (roots : List (Rat × Rat)) : Prop where
  apart : roots.Pairwise Apart
  simple : ∀ root ∈ roots, ∀ q : Nat, q.Prime → q ≤ Factor.defaultLimit →
    ¬ q * q ∣ root.1.num.natAbs

theorem isSeparate_nil : IsSeparate [] := ⟨.nil, by simp⟩

theorem IsSeparate.sublist {roots' : List (Rat × Rat)} (h : IsSeparate roots)
    (hsub : roots'.Sublist roots) : IsSeparate roots' :=
  ⟨h.apart.sublist hsub, fun root hroot => h.simple root (hsub.subset hroot)⟩

theorem IsSeparate.perm {roots' : List (Rat × Rat)} (h : IsSeparate roots)
    (hperm : roots.Perm roots') : IsSeparate roots' :=
  ⟨(hperm.pairwise_iff fun hab => hab.symm).mp h.apart,
    fun root hroot => h.simple root (hperm.mem_iff.mpr hroot)⟩

theorem radicalOf_injective : Function.Injective radicalOf := by
  rintro ⟨base, power⟩ ⟨base', power'⟩ h
  simpa [radicalOf] using h

theorem num_groupRoot (base : Nat) : ((base : Nat) : Rat).num.natAbs = base := by simp

/-- Groups of exponents have separate bases. -/
theorem isSeparate_groupRoots {large : List Nat} (h : IsExponents large exponents) :
    IsSeparate (groupRoots exponents) := by
  constructor
  · rw [groupRoots, List.pairwise_map]
    have hpowers : (fractionalPart exponents).Pairwise fun a b => a.1 ≠ b.1 :=
      List.pairwise_map.mp (powers_fractionalPart exponents)
    refine hpowers.imp_of_mem ?_
    rintro ⟨x, base⟩ ⟨y, base'⟩ hmem hmem' hne
    refine ⟨fun hminus => ?_, fun heq => absurd heq hne, fun q hq hlimit hdvd hdvd' => hne ?_⟩
    · have := h.two_le_base hmem
      have hneg : (base : Rat) = -1 := hminus
      have : (0 : Rat) ≤ base := Nat.cast_nonneg base
      linarith
    · rw [num_groupRoot] at hdvd hdvd'
      obtain ⟨-, -, rfl⟩ := mem_fractionalPart.mp hmem
      obtain ⟨-, -, rfl⟩ := mem_fractionalPart.mp hmem'
      exact h.power_eq_of_mem (h.mem_of_dvd hq hlimit hdvd) (h.mem_of_dvd hq hlimit hdvd')
  · refine List.forall_mem_map.mpr ?_
    rintro ⟨x, base⟩ hmem q hq hlimit hdvd
    rw [num_groupRoot] at hdvd
    obtain ⟨-, -, rfl⟩ := mem_fractionalPart.mp hmem
    have hq' : q ∈ members x exponents :=
      h.mem_of_dvd hq hlimit ((Nat.dvd_mul_left q q).trans hdvd)
    -- the other numbers of the group have no factor q left
    have hperm := List.perm_cons_erase hq'
    rw [hperm.prod_eq, List.prod_cons, Nat.mul_dvd_mul_iff_left hq.pos] at hdvd
    obtain ⟨m, hm, hqm⟩ := (Prime.dvd_prod_iff hq.prime).mp hdvd
    have hmember : m ∈ members x exponents := List.mem_of_mem_erase hm
    obtain ⟨y, hy, -⟩ := mem_members.mp hmember
    have hnodup := hperm.nodup_iff.mp (h.nodup_members x)
    rcases h.whole _ hy with hprime | hrough
    · obtain rfl : q = m := (Nat.prime_dvd_prime_iff_eq hq hprime).mp hqm
      exact (List.nodup_cons.mp hnodup).1 hm
    · have := hrough q hq hqm
      omega

/-- The canonical form of a product of powers has separate radicals. -/
theorem isSeparate_form (hmode : mode.numeric = false) {radicals : List (Rat × Rat)}
    {form : RadicalForm} (hradicals : ∀ radical ∈ radicals, IsFactorable radical.1)
    (hform : combineRadicals mode radicals = .ok form)
    (hfactors : form.factors = roots.map radicalOf) : IsSeparate roots := by
  obtain ⟨large, turn, exponents, hcollect, hexponents, -⟩ := exists_collectExponents hradicals
  obtain ⟨form', turns, hform', hfactors', -, hturns, -⟩ := combineRadicals_eq hmode hcollect
  obtain rfl : form' = form := by
    rw [hform] at hform'
    exact (Except.ok.inj hform').symm
  obtain rfl : roots = turns ++ groupRoots exponents :=
    List.map_injective_iff.mpr radicalOf_injective (hfactors.symm.trans hfactors')
  have hgroups := isSeparate_groupRoots hexponents
  rcases hturns with rfl | ⟨power, -, rfl⟩
  · exact hgroups
  · constructor
    · refine List.pairwise_cons.mpr ⟨fun root hroot => ?_, hgroups.apart⟩
      refine ⟨fun _ => (isRadical_of_mem_groupRoots hexponents root hroot).2,
        fun _ => .inl rfl, fun q hq _ hdvd => ?_⟩
      exact absurd (Nat.dvd_one.mp hdvd) hq.ne_one
    · refine List.forall_mem_cons.mpr ⟨fun q hq _ hdvd => ?_, hgroups.simple⟩
      exact absurd (Nat.dvd_one.mp ((Nat.dvd_mul_left q q).trans hdvd)) hq.ne_one

/-! ## Factors of a simple number -/

/-- All primes in a number are small, and none divides it twice. -/
def IsSimple (n : Nat) : Prop :=
  ∀ q : Nat, q.Prime → q ∣ n → q ≤ Factor.defaultLimit ∧ ¬ q * q ∣ n

theorem mem_factors_of_isSimple (hn : 0 < n) (h : IsSimple n) {q count : Nat} :
    (q, count) ∈ Factor.factors Factor.defaultLimit n ↔ q.Prime ∧ q ∣ n ∧ count = 1 := by
  have hfactors : Factor.IsFactorization Factor.defaultLimit 2 n
      (Factor.factors Factor.defaultLimit n) := Factor.isFactorization_factors hn
  have hdvd : ∀ factor ∈ Factor.factors Factor.defaultLimit n, factor.1 ^ factor.2 ∣ n := by
    intro factor hfactor
    rw [← hfactors.prod]
    exact List.dvd_prod (List.mem_map_of_mem hfactor)
  have hprime : ∀ factor ∈ Factor.factors Factor.defaultLimit n, factor.1.Prime := by
    intro factor hfactor
    rcases hfactors.whole factor hfactor with hprime | hrough
    · exact hprime
    · have htwo := hfactors.two_le factor hfactor
      have hmin := Nat.minFac_prime (by omega : factor.1 ≠ 1)
      have hlarge := hrough _ hmin (Nat.minFac_dvd _)
      have hpower := dvd_pow_self factor.1 (hfactors.count_pos factor hfactor).ne'
      have hsmall := (h _ hmin ((Nat.minFac_dvd _).trans (hpower.trans (hdvd factor hfactor)))).1
      omega
  have hcount : ∀ factor ∈ Factor.factors Factor.defaultLimit n, factor.2 = 1 := by
    intro factor hfactor
    have hpos := hfactors.count_pos factor hfactor
    by_contra hne
    have hsquare : factor.1 * factor.1 ∣ n := by
      rw [← pow_two]
      exact (pow_dvd_pow factor.1 (by omega)).trans (hdvd factor hfactor)
    exact (h _ (hprime factor hfactor) ((Nat.dvd_mul_left _ _).trans hsquare)).2 hsquare
  constructor
  · intro hmem
    have hone : count = 1 := hcount _ hmem
    subst hone
    exact ⟨hprime _ hmem, by simpa using hdvd _ hmem, rfl⟩
  · rintro ⟨hq, hqn, rfl⟩
    rw [← hfactors.prod] at hqn
    obtain ⟨power, hpower, hqpower⟩ := (Prime.dvd_prod_iff hq.prime).mp hqn
    obtain ⟨factor, hfactor, rfl⟩ := List.mem_map.mp hpower
    obtain ⟨r, count⟩ := factor
    have heq : q = r :=
      (Nat.prime_dvd_prime_iff_eq hq (hprime _ hfactor)).mp (hq.dvd_of_dvd_pow hqpower)
    have hone : count = 1 := hcount _ hfactor
    rwa [heq, ← hone]

/-! ## Exponents of separate radicals -/

theorem mem_addExponent_of_fresh {entry : Nat × Rat} (hfresh : ∀ old ∈ exponents, old.1 ≠ n) :
    entry ∈ addExponent n p exponents ↔ entry = (n, p) ∨ entry ∈ exponents := by
  induction exponents with
  | nil => simp [addExponent]
  | cons first rest ih =>
      obtain ⟨other, old⟩ := first
      obtain ⟨hfirst, hrest⟩ := List.forall_mem_cons.mp hfresh
      rw [addExponent]
      split_ifs with hlt heq
      · simp
      · exact absurd heq.symm hfirst
      · simp only [List.mem_cons, ih hrest]
        exact or_left_comm

theorem mem_foldl_addExponent {factors : List (Nat × Nat)} {entry : Nat × Rat}
    (hfactors : factors.Pairwise fun a b => a.1 < b.1)
    (hfresh : ∀ factor ∈ factors, ∀ old ∈ exponents, old.1 ≠ factor.1) :
    entry ∈ factors.foldl (fun exponents factor => addExponent factor.1 (factor.2 * p) exponents)
        exponents ↔
      (∃ factor ∈ factors, entry = (factor.1, factor.2 * p)) ∨ entry ∈ exponents := by
  induction factors generalizing exponents with
  | nil => simp
  | cons first rest ih =>
      obtain ⟨hfirst, hrest⟩ := List.pairwise_cons.mp hfactors
      obtain ⟨hnew, hold⟩ := List.forall_mem_cons.mp hfresh
      rw [List.foldl_cons, ih hrest, mem_addExponent_of_fresh hnew]
      · rw [List.exists_mem_cons_iff, or_left_comm, or_assoc]
      · intro factor hfactor old hmem
        rcases (mem_addExponent_of_fresh hnew).mp hmem with rfl | hmem
        · exact (hfirst factor hfactor).ne
        · exact hold factor hfactor old hmem

theorem ascending_foldl {factors : List (Nat × Nat)}
    (h : exponents.Pairwise fun a b => a.1 < b.1) :
    (factors.foldl (fun exponents factor => addExponent factor.1 (factor.2 * p) exponents)
      exponents).Pairwise fun a b => a.1 < b.1 := by
  induction factors generalizing exponents with
  | nil => exact h
  | cons first rest ih => exact ih (ascending_addExponent h)

/-- The exponents of some radicals: each prime in a base has the exponent of its radical. -/
structure CollectsTo (roots : List (Rat × Rat)) (turn : Rat) (exponents : Exponents) : Prop where
  collect : collectExponents roots = .ok (turn, exponents)
  turn : turn = ((roots.filter fun root => decide (root.1 = -1)).map Prod.snd).sum
  ascending : exponents.Pairwise fun a b => a.1 < b.1
  mem : ∀ q x, (q, x) ∈ exponents ↔
    ∃ root ∈ roots, q.Prime ∧ q ∣ root.1.num.natAbs ∧ x = root.2

theorem CollectsTo.append_minus {turn : Rat} (h : CollectsTo roots turn exponents) (power : Rat) :
    CollectsTo (roots ++ [(-1, power)]) (turn + power) exponents where
  collect := by
    rw [collectExponents_append, h.collect]
    simp [bind, Except.bind]
  turn := by simp [h.turn]
  ascending := h.ascending
  mem := fun q x => by
    rw [h.mem]
    simp only [List.mem_append, or_and_right, exists_or]
    refine ⟨.inl, fun hor => hor.resolve_right ?_⟩
    rintro ⟨root, hroot, hq, hdvd, -⟩
    obtain rfl := List.mem_singleton.mp hroot
    exact hq.ne_one (Nat.dvd_one.mp hdvd)

theorem CollectsTo.append_base {turn : Rat} (h : CollectsTo roots turn exponents) (hn : 0 < n)
    (hsimple : IsSimple n) (power : Rat)
    (hfresh : ∀ root ∈ roots, ∀ q : Nat, q.Prime → q ∣ n → ¬ q ∣ root.1.num.natAbs) :
    ∃ exponents', CollectsTo (roots ++ [((n : Rat), power)]) turn exponents' := by
  have hne : ¬ (n : Rat) = -1 := by
    have : (0 : Rat) ≤ n := Nat.cast_nonneg n
    linarith
  have hfactors : Factor.IsFactorization Factor.defaultLimit 2 n
      (Factor.factors Factor.defaultLimit n) := Factor.isFactorization_factors hn
  have hascending := hfactors.ascending
  refine ⟨(Factor.factors Factor.defaultLimit n).foldl
    (fun exponents factor => addExponent factor.1 (factor.2 * power) exponents) exponents,
    ⟨?_, ?_, ascending_foldl h.ascending, ?_⟩⟩
  · rw [collectExponents_append, h.collect]
    simp only [bind, Except.bind, if_neg hne, truncate_natCast]
    rw [addFactors_eq hn]
    rfl
  · simp [h.turn, hne]
  · intro q x
    rw [mem_foldl_addExponent hascending]
    · simp only [List.mem_append, or_and_right, exists_or]
      rw [← h.mem, or_comm]
      refine or_congr_right ⟨?_, ?_⟩
      · rintro ⟨⟨r, count⟩, hfactor, heq⟩
        obtain ⟨hr, hdvd, rfl⟩ := (mem_factors_of_isSimple hn hsimple).mp hfactor
        obtain ⟨rfl, rfl⟩ := Prod.mk.inj heq
        exact ⟨_, List.mem_singleton_self _, hr, by simpa using hdvd, by simp⟩
      · rintro ⟨root, hroot, hq, hdvd, rfl⟩
        obtain rfl := List.mem_singleton.mp hroot
        exact ⟨(q, 1), (mem_factors_of_isSimple hn hsimple).mpr ⟨hq, by simpa using hdvd, rfl⟩,
          by simp⟩
    · rintro ⟨r, count⟩ hfactor ⟨s, y⟩ hold heq
      obtain ⟨hr, hdvd, -⟩ := (mem_factors_of_isSimple hn hsimple).mp hfactor
      obtain ⟨root, hroot, -, hdvd', -⟩ := (h.mem s y).mp hold
      obtain rfl : s = r := heq
      exact hfresh root hroot s hr hdvd hdvd'

/-- Every root is a radical, and the primes in its base are small. -/
def IsSmall (roots : List (Rat × Rat)) : Prop :=
  ∀ root ∈ roots, IsRadical root.1 root.2 ∧
    ∀ q : Nat, q.Prime → q ∣ root.1.num.natAbs → q ≤ Factor.defaultLimit

theorem exists_natCast_of_isRadical {base power : Rat} (h : IsRadical base power)
    (hminus : base ≠ -1) : ∃ n : Nat, 0 < n ∧ base = n := by
  obtain ⟨n, hn, rfl⟩ := (isFactorable_of_isRadical h).resolve_left hminus
  exact ⟨n, hn, rfl⟩

theorem exists_collectsTo (h : IsSeparate roots) (hsmall : IsSmall roots) :
    ∃ turn exponents, CollectsTo roots turn exponents := by
  induction roots using List.reverseRecOn with
  | nil => exact ⟨0, [], rfl, by simp, .nil, by simp⟩
  | append_singleton rest root ih =>
      obtain ⟨hrest, hroot⟩ := List.forall_mem_append.mp hsmall
      obtain ⟨turn, exponents, hcollects⟩ := ih (h.sublist (List.sublist_append_left _ _)) hrest
      obtain ⟨base, power⟩ := root
      obtain ⟨hradical, hlimit⟩ := hroot _ (List.mem_singleton_self _)
      by_cases hminus : base = -1
      · subst hminus
        exact ⟨_, exponents, hcollects.append_minus power⟩
      · obtain ⟨n, hn, rfl⟩ := exists_natCast_of_isRadical hradical hminus
        rw [num_groupRoot] at hlimit
        have hsimple : IsSimple n := by
          intro q hq hdvd
          refine ⟨hlimit q hq hdvd, ?_⟩
          have := h.simple ((n : Rat), power) (by simp) q hq (hlimit q hq hdvd)
          rwa [num_groupRoot] at this
        obtain ⟨exponents', h'⟩ := hcollects.append_base hn hsimple power
          fun root hroot q hq hdvd => by
          have hapart := (List.pairwise_append.mp h.apart).2.2 root hroot _
            (List.mem_singleton_self _)
          intro hdvd'
          refine hapart.2.2 q hq (hlimit q hq hdvd) hdvd' ?_
          rwa [num_groupRoot]
        exact ⟨turn, exponents', h'⟩

/-! ## Separate radicals combine to themselves -/

section

variable {turn : Rat}

theorem fraction_of_lt_one {x : Rat} (hpos : 0 < x) (hlt : x < 1) :
    x.floor = 0 ∧ fraction x = x := by
  have hfloor : x.floor = 0 := by
    have hlow : (x.floor : Rat) < 1 := (Rat.floor_le x).trans_lt hlt
    have hhigh : x < ((x.floor + 1 : Int) : Rat) := Rat.lt_floor_add_one x
    have hpositive : (0 : Rat) < ((x.floor + 1 : Int) : Rat) := hpos.trans hhigh
    have hlow' : x.floor < 1 := by exact_mod_cast hlow
    have hpositive' : 0 < x.floor + 1 := by exact_mod_cast hpositive
    omega
  refine ⟨hfloor, ?_⟩
  rw [fraction, hfloor, Int.cast_zero, sub_zero]

/-- The exponents of proper radicals are fractions. -/
theorem CollectsTo.fraction_eq (h : CollectsTo roots turn exponents) (hsmall : IsSmall roots)
    {entry : Nat × Rat} (hentry : entry ∈ exponents) :
    entry.2.floor = 0 ∧ fraction entry.2 = entry.2 := by
  obtain ⟨root, hroot, hq, hdvd, hpower⟩ := (h.mem entry.1 entry.2).mp hentry
  rw [hpower]
  rcases (hsmall root hroot).1 with ⟨-, -, hpos, hlt⟩ | ⟨hminus, -⟩
  · exact fraction_of_lt_one hpos hlt
  · rw [hminus] at hdvd
    exact absurd (Nat.dvd_one.mp hdvd) hq.ne_one

theorem CollectsTo.integralPart (h : CollectsTo roots turn exponents) (hsmall : IsSmall roots) :
    integralPart exponents = 1 := by
  have hfloor : ∀ entry ∈ exponents, entry.2.floor = 0 :=
    fun entry hentry => (h.fraction_eq hsmall hentry).1
  clear h
  rw [Reduce.integralPart]
  induction exponents with
  | nil => rfl
  | cons first rest ih =>
      obtain ⟨prime, exponent⟩ := first
      obtain ⟨hfirst, hrest⟩ := List.forall_mem_cons.mp hfloor
      have hone : Ratio.power (prime : Rat) exponent.floor = 1 := by
        rw [show exponent.floor = 0 from hfirst]
        rfl
      simp only [List.foldl_cons, hone, mul_one]
      exact ih hrest

theorem CollectsTo.base_ne (h : CollectsTo roots turn exponents) {q : Nat} {x : Rat}
    (hmem : (q, x) ∈ exponents) :
    ∃ root ∈ roots, root.1 ≠ -1 ∧ q.Prime ∧ q ∣ root.1.num.natAbs ∧ x = root.2 := by
  obtain ⟨root, hroot, hq, hdvd, hpower⟩ := (h.mem q x).mp hmem
  refine ⟨root, hroot, fun hminus => ?_, hq, hdvd, hpower⟩
  rw [hminus] at hdvd
  exact hq.ne_one (Nat.dvd_one.mp hdvd)

/-- The primes with one exponent are those of one base. -/
theorem CollectsTo.mem_members (h : CollectsTo roots turn exponents) (hsmall : IsSmall roots)
    (hseparate : IsSeparate roots) {root : Rat × Rat} (hroot : root ∈ roots)
    (hminus : root.1 ≠ -1) {q : Nat} :
    q ∈ members root.2 exponents ↔ q.Prime ∧ q ∣ root.1.num.natAbs := by
  rw [Reduce.mem_members]
  constructor
  · rintro ⟨x, hx, hfraction⟩
    obtain ⟨other, hother, hminus', hq, hdvd, hpower⟩ := h.base_ne hx
    have hsame : other.2 = root.2 := by
      rw [← hpower, ← hfraction]
      exact (h.fraction_eq hsmall hx).2.symm
    by_cases heq : other = root
    · exact ⟨hq, heq ▸ hdvd⟩
    · have hapart : Apart other root := hseparate.apart.forall hother hroot heq
      rcases hapart.2.1 hsame with hbase | hbase
      · exact absurd hbase hminus'
      · exact absurd hbase hminus
  · rintro ⟨hq, hdvd⟩
    have hmem := (h.mem q root.2).mpr ⟨root, hroot, hq, hdvd, rfl⟩
    exact ⟨root.2, hmem, (h.fraction_eq hsmall hmem).2⟩

theorem CollectsTo.prod_members (h : CollectsTo roots turn exponents) (hsmall : IsSmall roots)
    (hseparate : IsSeparate roots) {root : Rat × Rat} (hroot : root ∈ roots)
    (hminus : root.1 ≠ -1) :
    (((members root.2 exponents).prod : Nat) : Rat) = root.1 := by
  obtain ⟨hradical, hlimit⟩ := hsmall root hroot
  obtain ⟨n, hn, hbase⟩ := exists_natCast_of_isRadical hradical hminus
  have hnum : root.1.num.natAbs = n := by rw [hbase, num_groupRoot]
  have hsquarefree : Squarefree n := by
    rw [Nat.squarefree_iff_prime_squarefree]
    intro q hq hdvd
    rw [← hnum] at hdvd
    exact hseparate.simple root hroot q hq (hlimit q hq ((Nat.dvd_mul_left q q).trans hdvd)) hdvd
  have hnodup : (members root.2 exponents).Nodup :=
    (List.filter_sublist.map Prod.fst).nodup
      (List.pairwise_map.mpr (h.ascending.imp fun hlt => hlt.ne))
  have hfactors : (members root.2 exponents).toFinset = n.primeFactors := by
    ext q
    rw [List.mem_toFinset, h.mem_members hsmall hseparate hroot hminus, hnum,
      Nat.mem_primeFactors]
    exact ⟨fun ⟨hq, hdvd⟩ => ⟨hq, hdvd, hn.ne'⟩, fun ⟨hq, hdvd, _⟩ => ⟨hq, hdvd⟩⟩
  have hprod : (members root.2 exponents).prod = n := by
    rw [← Nat.prod_primeFactors_of_squarefree hsquarefree, ← hfactors,
      List.prod_toFinset _ hnodup, List.map_id']
  rw [hprod, hbase]

/-- The groups of the exponents are the radicals they came from. -/
theorem CollectsTo.groupRoots_perm (h : CollectsTo roots turn exponents) (hsmall : IsSmall roots)
    (hseparate : IsSeparate roots) :
    (groupRoots exponents).Perm (roots.filter fun root => !decide (root.1 = -1)) := by
  have hnodup : roots.Nodup := hseparate.apart.imp fun hapart => hapart.ne
  have hgroups : (groupRoots exponents).Nodup := by
    refine (List.Nodup.of_map _ (powers_fractionalPart exponents)).map ?_
    rintro ⟨x, base⟩ ⟨y, base'⟩ heq
    simpa [and_comm] using heq
  refine (List.perm_ext_iff_of_nodup hgroups (hnodup.filter _)).mpr ?_
  rintro ⟨base, power⟩
  simp only [groupRoots, List.mem_map, List.mem_filter, Bool.not_eq_true', decide_eq_false_iff_not]
  constructor
  · rintro ⟨⟨x, m⟩, hmem, heq⟩
    obtain ⟨-, hne, rfl⟩ := mem_fractionalPart.mp hmem
    obtain ⟨q, hq⟩ := List.exists_mem_of_ne_nil _ hne
    obtain ⟨y, hy, hfraction⟩ := Reduce.mem_members.mp hq
    obtain ⟨root, hroot, hminus, -, -, hpower⟩ := h.base_ne hy
    have hx : x = root.2 := by
      rw [← hpower, ← hfraction]
      exact (h.fraction_eq hsmall hy).2
    have hbase := h.prod_members hsmall hseparate hroot hminus
    rw [← hx] at hbase
    simp only [Prod.mk.injEq] at heq
    have hroot' : root = (base, power) := Prod.ext (hbase.symm.trans heq.1) (hx.symm.trans heq.2)
    subst hroot'
    exact ⟨hroot, hminus⟩
  · rintro ⟨hroot, hminus⟩
    have hbase := h.prod_members hsmall hseparate hroot hminus
    obtain ⟨-, htwo, hpos, -⟩ := (hsmall _ hroot).1.resolve_right fun hone => hminus hone.1
    refine ⟨(power, (members power exponents).prod),
      mem_fractionalPart.mpr ⟨hpos.ne', fun hnil => ?_, rfl⟩, Prod.ext hbase rfl⟩
    rw [hnil, List.prod_nil] at hbase
    rw [← hbase] at htwo
    norm_num at htwo

theorem negativeOnePower_zero : negativeOnePower mode 0 = .ok (1, none) := by
  have hturn : Ratio.modulo 0 2 = 0 := by
    have hfloor : Rat.floor 0 = 0 := rfl
    rw [Ratio.modulo, zero_div, hfloor]
    norm_num
  rw [negativeOnePower, hturn]
  rfl

theorem negativeOnePower_of_isRadical (hmode : mode.numeric = false) {power : Rat}
    (h : IsRadical (-1) power) :
    negativeOnePower mode power = .ok (1, some (.radical 1 (-1) power)) := by
  obtain ⟨-, hpos, hlt, heven, htwo⟩ := h.resolve_left fun hbase => by
    have := hbase.2.1
    norm_num at this
  have hturn : Ratio.modulo power 2 = power := by
    have hfloor := (fraction_of_lt_one (x := power / 2) (by linarith) (by linarith)).1
    rw [Ratio.modulo, hfloor]
    simp
  have hodd : ¬ power.den % 2 = 1 := by omega
  have hne : ¬ power.den = 2 := by omega
  simp only [negativeOnePower, hturn, if_neg hodd, if_neg hne, hmode]
  rfl

theorem IsSeparate.filter_minus (h : IsSeparate roots) :
    roots.filter (fun root => decide (root.1 = -1)) = [] ∨
      ∃ power, roots.filter (fun root => decide (root.1 = -1)) = [(-1, power)] := by
  have hapart := h.apart.sublist (List.filter_sublist (p := fun root => decide (root.1 = -1)))
  have hminus : ∀ root ∈ roots.filter (fun root => decide (root.1 = -1)), root.1 = -1 :=
    fun root hroot => of_decide_eq_true (List.mem_filter.mp hroot).2
  match hfilter : roots.filter (fun root => decide (root.1 = -1)) with
  | [] => exact .inl hfilter
  | [root] =>
      rw [hfilter] at hminus
      have hroot : root = (-1, root.2) := Prod.ext (hminus root List.mem_cons_self) rfl
      exact .inr ⟨root.2, hfilter.trans (congrArg (fun other => [other]) hroot)⟩
  | first :: second :: rest =>
      rw [hfilter] at hapart hminus
      have hne := ((List.pairwise_cons.mp hapart).1 second List.mem_cons_self).1
        (hminus first List.mem_cons_self)
      exact absurd (hminus second (by simp)) hne

/-- Separate radicals with small primes are their own canonical form. -/
theorem exists_combineRadicals_eq (hmode : mode.numeric = false) (h : IsSeparate roots)
    (hsmall : IsSmall roots) :
    ∃ roots' : List (Rat × Rat), combineRadicals mode roots = .ok ⟨1, roots'.map radicalOf, []⟩ ∧
      roots'.Perm roots := by
  obtain ⟨turn, exponents, hcollects⟩ := exists_collectsTo h hsmall
  have hgroups := hcollects.groupRoots_perm hsmall h
  have hperm := List.filter_append_perm (fun root => decide (root.1 = -1)) roots
  have hturn := hcollects.turn
  rw [combineRadicals, hcollects.collect]
  simp only [bind, Except.bind, map_fractionalPart, hcollects.integralPart hsmall, mul_one]
  rcases h.filter_minus with hnone | ⟨power, hone⟩
  · rw [hnone] at hperm hturn
    rw [hturn, List.map_nil, List.sum_nil, negativeOnePower_zero]
    exact ⟨groupRoots exponents, rfl, hgroups.trans hperm⟩
  · rw [hone] at hperm hturn
    have hmem : (-1, power) ∈ roots := by
      have : (-1, power) ∈ roots.filter fun root => decide (root.1 = -1) := by
        rw [hone]
        exact List.mem_singleton_self _
      exact (List.mem_filter.mp this).1
    rw [hturn, List.map_singleton, List.sum_singleton,
      negativeOnePower_of_isRadical hmode (hsmall _ hmem).1]
    exact ⟨(-1, power) :: groupRoots exponents, rfl, (hgroups.cons _).trans hperm⟩

end

end ExactAlgebra.Reduce
