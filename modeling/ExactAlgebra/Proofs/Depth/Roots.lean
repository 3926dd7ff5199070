import ExactAlgebra.Proofs.Canonical.Separate

/-!
# How many roots a product of radicals has

A base with a prime factor beyond trial division contributes one number that may be no
prime, and so may the base of a group of roots.  A product of radicals has at most as many
of them as its factors, and fewer if two of its roots have one base or if it gives a unit.
-/

namespace ExactAlgebra.Reduce

open Classical

variable {mode : Mode} {exponents exponents' : Exponents} {large : List Nat} {n prime : Nat}
  {radicals roots : List (Rat × Rat)} {turn p x : Rat}

/-! ## Large primes -/

/-- A number with a prime factor that trial division does not try. -/
def HasLargePrime (n : Nat) : Prop := ∃ q : Nat, q.Prime ∧ Factor.defaultLimit < q ∧ q ∣ n

/-- One if there is a large prime factor. -/
noncomputable def largeCount (n : Nat) : Nat := if HasLargePrime n then 1 else 0

theorem largeCount_le_one (n : Nat) : largeCount n ≤ 1 := by
  unfold largeCount
  split_ifs <;> omega

theorem largeCount_of_prime (hprime : n.Prime) (hlimit : n ≤ Factor.defaultLimit) :
    largeCount n = 0 := by
  refine if_neg ?_
  rintro ⟨q, hq, hlt, hdvd⟩
  have := (Nat.prime_dvd_prime_iff_eq hq hprime).mp hdvd
  omega

theorem largeCount_le_of_dvd {m : Nat} (hdvd : m ∣ n) : largeCount m ≤ largeCount n := by
  by_cases h : HasLargePrime m
  · obtain ⟨q, hq, hlt, hqm⟩ := h
    have hn : HasLargePrime n := ⟨q, hq, hlt, hqm.trans hdvd⟩
    rw [largeCount, largeCount, if_pos hn]
    split_ifs <;> omega
  · rw [largeCount, if_neg h]
    exact Nat.zero_le _

/-- The product of some numbers has a large prime factor only if one of them has. -/
theorem largeCount_prod_le (numbers : List Nat) :
    largeCount numbers.prod ≤ (numbers.map largeCount).sum := by
  by_cases h : HasLargePrime numbers.prod
  · obtain ⟨q, hq, hlt, hdvd⟩ := h
    obtain ⟨m, hm, hqm⟩ := (Prime.dvd_prod_iff hq.prime).mp hdvd
    have hlarge : largeCount m = 1 := if_pos ⟨q, hq, hlt, hqm⟩
    calc largeCount numbers.prod ≤ 1 := largeCount_le_one _
      _ = largeCount m := hlarge.symm
      _ ≤ (numbers.map largeCount).sum :=
          List.single_le_sum (by simp) _ (List.mem_map_of_mem hm)
  · rw [largeCount, if_neg h]
    exact Nat.zero_le _

/-- The numbers of an exponent list that have a large prime factor. -/
noncomputable def largeEntries (exponents : Exponents) : Nat :=
  (exponents.map fun entry => largeCount entry.1).sum

theorem largeEntries_addExponent (prime : Nat) (x : Rat) (exponents : Exponents) :
    largeEntries (addExponent prime x exponents) ≤ largeCount prime + largeEntries exponents := by
  induction exponents with
  | nil => simp [addExponent, largeEntries]
  | cons first rest ih =>
      obtain ⟨other, old⟩ := first
      rw [addExponent]
      split_ifs with hlt heq
      · simp [largeEntries]
      · simp [largeEntries]
      · simp only [largeEntries, List.map_cons, List.sum_cons] at ih ⊢
        omega

theorem largeEntries_foldl (factors : List (Nat × Nat)) (power : Rat) (exponents : Exponents) :
    largeEntries (factors.foldl (fun exponents factor =>
        addExponent factor.1 (factor.2 * power) exponents) exponents) ≤
      (factors.map fun factor => largeCount factor.1).sum + largeEntries exponents := by
  induction factors generalizing exponents with
  | nil => simp
  | cons factor rest ih =>
      have hfirst := largeEntries_addExponent factor.1 (factor.2 * power) exponents
      have hrest := ih (addExponent factor.1 (factor.2 * power) exponents)
      rw [List.foldl_cons, List.map_cons, List.sum_cons]
      omega

/-- If all but the last member count nothing, the count is that of one member. -/
theorem exists_sum_le_of_pairwise {α : Type} {count : α → Nat} {items : List α}
    (h : items.Pairwise fun a _ => count a = 0) :
    (items.map count).sum = 0 ∨ ∃ item ∈ items, (items.map count).sum = count item := by
  induction items with
  | nil => exact .inl rfl
  | cons item rest ih =>
      obtain ⟨hfirst, hrest⟩ := List.pairwise_cons.mp h
      rw [List.map_cons, List.sum_cons]
      match rest with
      | [] => exact .inr ⟨item, List.mem_cons_self, by simp⟩
      | next :: others =>
          rw [hfirst next List.mem_cons_self, zero_add]
          refine (ih hrest).imp_right ?_
          rintro ⟨other, hother, hsum⟩
          exact ⟨other, List.mem_cons_of_mem _ hother, hsum⟩

/-- The factors of a number have at most one large number among them. -/
theorem sum_largeCount_factors (hn : 1 ≤ n) :
    ((Factor.factors Factor.defaultLimit n).map fun factor => largeCount factor.1).sum ≤
      largeCount n := by
  have hfactors : Factor.IsFactorization Factor.defaultLimit 2 n
      (Factor.factors Factor.defaultLimit n) := Factor.isFactorization_factors hn
  rcases exists_sum_le_of_pairwise (hfactors.small.imp fun ⟨hprime, hlimit⟩ =>
    largeCount_of_prime hprime hlimit) with hzero | ⟨factor, hfactor, hsum⟩
  · omega
  · rw [hsum]
    refine largeCount_le_of_dvd ?_
    have hpower : factor.1 ^ factor.2 ∣ n := by
      rw [← hfactors.prod]
      exact List.dvd_prod (List.mem_map_of_mem hfactor)
    exact (dvd_pow_self _ (hfactors.count_pos factor hfactor).ne').trans hpower

/-! ## Factors of all bases -/

/-- One for a root of minus one, and for a base with a large prime factor. -/
noncomputable def rootPotential (base : Rat) : Nat :=
  if base = -1 then 1 else largeCount base.num.natAbs

theorem rootPotential_le_one (base : Rat) : rootPotential base ≤ 1 := by
  unfold rootPotential
  split_ifs
  · exact le_rfl
  · exact largeCount_le_one _

theorem rootPotential_natCast (n : Nat) : rootPotential n = largeCount n := by
  have hne : (n : Rat) ≠ -1 := by
    have : (0 : Rat) ≤ n := Nat.cast_nonneg n
    intro h
    linarith
  rw [rootPotential, if_neg hne, Rat.num_natCast, Int.natAbs_natCast]

noncomputable def rootsPotential (roots : List (Rat × Rat)) : Nat :=
  (roots.map fun root => rootPotential root.1).sum

/-- The exponents of the roots of minus one. -/
def turns (roots : List (Rat × Rat)) : List Rat :=
  (roots.filter fun root => decide (root.1 = -1)).map Prod.snd

/-- Each base has at most one large number among its factors, and minus one has none. -/
theorem largeEntries_collectExponents (hradicals : ∀ radical ∈ radicals, IsFactorable radical.1)
    (h : collectExponents radicals = .ok (turn, exponents)) :
    turn = (turns radicals).sum ∧
      largeEntries exponents + (turns radicals).length ≤ rootsPotential radicals := by
  induction radicals using List.reverseRecOn generalizing turn exponents with
  | nil =>
      cases h
      simp [turns, largeEntries, rootsPotential]
  | append_singleton rest radical ih =>
      obtain ⟨base, power⟩ := radical
      rw [List.forall_mem_append, List.forall_mem_singleton] at hradicals
      rw [collectExponents_append] at h
      obtain ⟨-, turn', exponents', hrest, -, -⟩ := exists_collectExponents hradicals.1
      obtain ⟨hturn, hle⟩ := ih hradicals.1 hrest
      rw [hrest] at h
      have hsum : rootsPotential (rest ++ [(base, power)]) =
          rootsPotential rest + rootPotential base := by
        simp [rootsPotential]
      rw [hsum]
      by_cases hbase : base = -1
      · subst hbase
        cases h
        refine ⟨by simp [turns, hturn], ?_⟩
        have hlength : (turns (rest ++ [(-1, power)])).length = (turns rest).length + 1 := by
          simp [turns]
        rw [hlength, rootPotential, if_pos rfl]
        omega
      · have hturns : turns (rest ++ [(base, power)]) = turns rest := by simp [turns, hbase]
        obtain ⟨n, hn, hvalue⟩ := hradicals.2.resolve_left hbase
        change base = n at hvalue
        simp only [bind, Except.bind, if_neg hbase] at h
        rw [hvalue, truncate_natCast, addFactors_eq hn] at h
        cases h
        rw [hturns, hvalue, rootPotential_natCast]
        have hfactors := sum_largeCount_factors hn
        have hfold := largeEntries_foldl (Factor.factors Factor.defaultLimit n) power exponents'
        exact ⟨hturn, by omega⟩

/-! ## Groups -/

/-- Members with different keys share no entry. -/
theorem sum_members_le (exponents : Exponents) {powers : List Rat} (hpowers : powers.Nodup) :
    (powers.map fun power => ((members power exponents).map largeCount).sum).sum ≤
      largeEntries exponents := by
  induction exponents with
  | nil => simp [members, largeEntries]
  | cons entry rest ih =>
      have hstep (power : Rat) : ((members power (entry :: rest)).map largeCount).sum =
          (if fraction entry.2 = power then largeCount entry.1 else 0) +
            ((members power rest).map largeCount).sum := by
        by_cases h : fraction entry.2 = power <;> simp [members, h]
      have hone : (powers.map fun power =>
          if fraction entry.2 = power then largeCount entry.1 else 0).sum ≤ largeCount entry.1 := by
        clear ih
        induction powers with
        | nil => simp
        | cons power others ih =>
            obtain ⟨hfresh, hothers⟩ := List.nodup_cons.mp hpowers
            rw [List.map_cons, List.sum_cons]
            split_ifs with heq
            · have hnone : (others.map fun power =>
                  if fraction entry.2 = power then largeCount entry.1 else 0).sum = 0 := by
                refine List.sum_eq_zero (List.forall_mem_map.mpr fun other hother => if_neg ?_)
                rintro rfl
                exact hfresh (heq ▸ hother)
              omega
            · have := ih hothers
              omega
      have hsum : largeEntries (entry :: rest) = largeCount entry.1 + largeEntries rest := by
        simp [largeEntries]
      simp only [hstep, List.sum_map_add, hsum]
      exact Nat.add_le_add hone ih

/-- A number that is no small prime has a large prime factor. -/
theorem IsExponents.largeCount_eq_one (h : IsExponents large exponents) {q : Rat} {base : Nat}
    (hp : (p, base) ∈ fractionalPart exponents) (hq : (q, base) ∈ fractionalPart exponents)
    (hne : p ≠ q) : ∀ m ∈ members p exponents, largeCount m = 1 := by
  obtain ⟨-, -, hpbase⟩ := mem_fractionalPart.mp hp
  obtain ⟨-, -, hqbase⟩ := mem_fractionalPart.mp hq
  intro m hm
  refine if_pos ?_
  obtain ⟨x, hx, -⟩ := mem_members.mp hm
  rcases h.whole _ hx with hprime | hrough
  · refine ⟨m, hprime, ?_, dvd_rfl⟩
    by_contra hle
    have hdvd : m ∣ (members q exponents).prod := by
      rw [← hqbase, hpbase]
      exact List.dvd_prod hm
    exact hne (h.power_eq_of_mem hm (h.mem_of_dvd hprime (not_lt.mp hle) hdvd))
  · have htwo := h.two_le _ hx
    have hprime := Nat.minFac_prime (n := m) (by dsimp only at htwo; omega)
    exact ⟨m.minFac, hprime, hrough _ hprime m.minFac_dvd, m.minFac_dvd⟩

theorem rootsPotential_groupRoots_eq (exponents : Exponents) :
    rootsPotential (groupRoots exponents) =
      ((fractionalPart exponents).map fun group => largeCount group.2).sum := by
  rw [rootsPotential, groupRoots, List.map_map]
  exact congrArg List.sum (List.map_congr_left fun group _ => rootPotential_natCast group.2)

theorem largeCount_group_le {group : Rat × Nat} (hgroup : group ∈ fractionalPart exponents) :
    largeCount group.2 ≤ ((members group.1 exponents).map largeCount).sum := by
  obtain ⟨power, base⟩ := group
  obtain ⟨-, -, rfl⟩ := mem_fractionalPart.mp hgroup
  exact largeCount_prod_le _

theorem sum_members_fractionalPart_le (exponents : Exponents) :
    ((fractionalPart exponents).map fun group =>
      ((members group.1 exponents).map largeCount).sum).sum ≤ largeEntries exponents := by
  have h := sum_members_le exponents (powers_fractionalPart exponents)
  rwa [List.map_map] at h

theorem rootsPotential_groupRoots_le (exponents : Exponents) :
    rootsPotential (groupRoots exponents) ≤ largeEntries exponents := by
  rw [rootsPotential_groupRoots_eq]
  exact (List.sum_le_sum fun group hgroup => largeCount_group_le hgroup).trans
    (sum_members_fractionalPart_le exponents)

/-- If two groups have one base, one of them is the product of several large numbers. -/
theorem rootsPotential_groupRoots_lt (h : IsExponents large exponents)
    (hbases : ¬ ((groupRoots exponents).map Prod.fst).Nodup) :
    rootsPotential (groupRoots exponents) < largeEntries exponents := by
  obtain ⟨p, q, base, hp, hq, hne⟩ : ∃ p q base, (p, base) ∈ fractionalPart exponents ∧
      (q, base) ∈ fractionalPart exponents ∧ p ≠ q := by
    by_contra hnone
    push Not at hnone
    refine hbases ?_
    rw [groupRoots, List.map_map]
    refine List.Nodup.map_on ?_ (List.Nodup.of_map _ (powers_fractionalPart exponents))
    rintro ⟨p, base⟩ hp ⟨q, base'⟩ hq hbase
    obtain rfl : base = base' := by simpa using hbase
    rw [hnone p q base hp hq]
  have hcount (p : Rat) (hlarge : ∀ m ∈ members p exponents, largeCount m = 1) :
      ((members p exponents).map largeCount).sum = (members p exponents).length := by
    rw [List.map_congr_left hlarge]
    simp
  have hplarge := h.largeCount_eq_one hp hq hne
  have hqlarge := h.largeCount_eq_one hq hp hne.symm
  obtain ⟨-, hpne, hpbase⟩ := mem_fractionalPart.mp hp
  obtain ⟨-, hqne, hqbase⟩ := mem_fractionalPart.mp hq
  have hppos := List.length_pos_iff.mpr hpne
  have hqpos := List.length_pos_iff.mpr hqne
  rw [rootsPotential_groupRoots_eq]
  refine lt_of_lt_of_le ?_ (sum_members_fractionalPart_le exponents)
  refine List.sum_lt_sum _ _ (fun group hgroup => largeCount_group_le hgroup) ?_
  by_cases hlength : 2 ≤ (members p exponents).length
  · exact ⟨(p, base), hp, by
      have := largeCount_le_one base
      simp only [hcount p hplarge]
      omega⟩
  · refine ⟨(q, base), hq, ?_⟩
    simp only [hcount q hqlarge]
    have := largeCount_le_one base
    by_contra hle
    -- two groups of one number each would share it
    obtain ⟨m, hm⟩ := List.length_eq_one_iff.mp (by omega : (members p exponents).length = 1)
    obtain ⟨k, hk⟩ := List.length_eq_one_iff.mp (by omega : (members q exponents).length = 1)
    rw [hm, List.prod_singleton] at hpbase
    rw [hk, List.prod_singleton] at hqbase
    have hmem : m ∈ members q exponents := by
      rw [hk, List.mem_singleton, ← hpbase, hqbase]
    exact hne (h.power_eq_of_mem (by simp [hm]) hmem)

/-! ## Products of radicals -/

theorem length_turns_of_unit {sign : Rat} {name : String} (hmode : mode.numeric = false)
    (hturns : ∀ power ∈ turns radicals, IsRadical (-1) power)
    (h : negativeOnePower mode (turns radicals).sum = .ok (sign, some (.named name))) :
    2 ≤ (turns radicals).length := by
  match hpowers : turns radicals with
  | [] =>
      rw [hpowers, List.sum_nil, negativeOnePower_zero] at h
      cases h
  | [power] =>
      have hpower : IsRadical (-1) power := hturns power (by simp [hpowers])
      rw [hpowers, List.sum_singleton, negativeOnePower_of_isRadical hmode hpower] at h
      cases h
  | first :: second :: rest => simp

theorem length_turns_of_root {sign power : Rat}
    (h : negativeOnePower mode (turns radicals).sum = .ok (sign, some (.radical 1 (-1) power))) :
    1 ≤ (turns radicals).length := by
  match hpowers : turns radicals with
  | [] =>
      rw [hpowers, List.sum_nil, negativeOnePower_zero] at h
      cases h
  | first :: rest => simp

/-- The roots and units of a product of radicals: its groups, and at most one of a root of minus
one and a unit. -/
theorem combineRadicals_roots (hmode : mode.numeric = false)
    (hturns : ∀ power ∈ turns radicals, IsRadical (-1) power)
    (hcollect : collectExponents radicals = .ok ((turns radicals).sum, exponents))
    {form : RadicalForm} (hform : combineRadicals mode radicals = .ok form)
    (hroots : form.factors = roots.map radicalOf) :
    (roots = groupRoots exponents ∧ form.extras = []) ∨
      (roots = groupRoots exponents ∧ form.extras.length = 1 ∧ 2 ≤ (turns radicals).length) ∨
      ∃ power, roots = (-1, power) :: groupRoots exponents ∧ form.extras = [] ∧
        1 ≤ (turns radicals).length := by
  obtain ⟨sign, extra, hsign, -, hextra⟩ := negativeOnePower_cases hmode (turns radicals).sum
  rw [combineRadicals, hcollect] at hform
  simp only [bind, Except.bind, hsign, map_fractionalPart] at hform
  cases hextra with
  | real =>
      cases hform
      exact .inl ⟨radicalOf_injective.list_map hroots.symm, rfl⟩
  | imaginary =>
      cases hform
      exact .inr (.inl ⟨radicalOf_injective.list_map hroots.symm, rfl,
        length_turns_of_unit hmode hturns hsign⟩)
  | @root power hpower =>
      cases hform
      have hcons : Expr.radical 1 (-1) power :: (groupRoots exponents).map radicalOf =
          ((-1, power) :: groupRoots exponents).map radicalOf := rfl
      exact .inr (.inr ⟨power, radicalOf_injective.list_map (hroots.symm.trans hcons), rfl,
        length_turns_of_root hsign⟩)

/-- What a product of radicals gives has at most as many large bases, roots of minus one and
units as its factors, and fewer if its roots do not fit into one product or there is a unit. -/
theorem exists_isForm_potential (hmode : mode.numeric = false)
    (hradicals : ∀ radical ∈ radicals, IsFactorable radical.1)
    (hturns : ∀ power ∈ turns radicals, IsRadical (-1) power) :
    ∃ form roots, combineRadicals mode radicals = .ok form ∧ IsForm mode form roots ∧
      (radicals.length ≤ 2 → (roots.map Prod.fst).Nodup) ∧
      rootsPotential roots + form.extras.length ≤ rootsPotential radicals ∧
      (form.extras ≠ [] ∨ ¬ (roots.map Prod.fst).Nodup →
        rootsPotential roots + form.extras.length < rootsPotential radicals) := by
  obtain ⟨form, roots, hok, hform, hnodup⟩ := exists_isForm hmode hradicals
  obtain ⟨large, turn, exponents, hcollect, hexponents, -⟩ := exists_collectExponents hradicals
  obtain ⟨rfl, hle⟩ := largeEntries_collectExponents hradicals hcollect
  have hgroups := rootsPotential_groupRoots_le exponents
  have hstrict := rootsPotential_groupRoots_lt hexponents
  refine ⟨form, roots, hok, hform, hnodup, ?_⟩
  rcases combineRadicals_roots hmode hturns hcollect hok hform.factors with
    ⟨rfl, hextras⟩ | ⟨rfl, hextras, hlength⟩ | ⟨power, rfl, hextras, hlength⟩
  · simp only [hextras, List.length_nil, ne_eq, not_true_eq_false, false_or]
    exact ⟨by omega, fun hbases => by have := hstrict hbases; omega⟩
  · exact ⟨by omega, fun _ => by omega⟩
  · have hsum : rootsPotential ((-1, power) :: groupRoots exponents) =
        1 + rootsPotential (groupRoots exponents) := by
      simp [rootsPotential, rootPotential]
    have hfresh : -1 ∉ (groupRoots exponents).map Prod.fst := fun hmem => by
      obtain ⟨root, hroot, hbase⟩ := List.mem_map.mp hmem
      exact (isRadical_of_mem_groupRoots hexponents root hroot).2 hbase
    simp only [hextras, List.length_nil, ne_eq, not_true_eq_false, false_or, hsum, List.map_cons,
      List.nodup_cons, hfresh, not_false_eq_true, true_and]
    exact ⟨by omega, fun hbases => by have := hstrict hbases; omega⟩

end ExactAlgebra.Reduce
