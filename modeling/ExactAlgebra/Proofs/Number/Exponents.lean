import ExactAlgebra.Proofs.Number.Factor
import ExactAlgebra.Reduce.Radical

/-!
# Exponents of factors

A list of exponents ascends by its numbers, each of which is a factor that trial
division keeps whole.  The fractional parts of the exponents partition the numbers
into groups, and a group is named by the product of its numbers.
-/

namespace ExactAlgebra.Reduce

variable {prime : Nat} {exponent power : Rat} {exponents : Exponents} {large : List Nat}

/-! ## Ascending lists -/

/-- Ascending factors, all of them small primes but for some large ones. -/
structure IsExponents (large : List Nat) (exponents : Exponents) : Prop where
  ascending : exponents.Pairwise fun a b => a.1 < b.1
  two_le : ∀ entry ∈ exponents, 2 ≤ entry.1
  whole : ∀ entry ∈ exponents, Factor.Whole Factor.defaultLimit entry.1
  small : ∀ entry ∈ exponents, entry.1 ∉ large →
    entry.1.Prime ∧ entry.1 ≤ Factor.defaultLimit

theorem isExponents_nil : IsExponents [] [] := by
  constructor <;> simp

/-- More numbers may be large. -/
theorem IsExponents.mono {large' : List Nat} (h : IsExponents large exponents)
    (hsubset : large ⊆ large') : IsExponents large' exponents :=
  { h with small := fun entry hentry hnew => h.small entry hentry fun hold => hnew (hsubset hold) }

/-- Each number of the new list is the added one or an old one. -/
theorem fst_of_mem_addExponent {entry : Nat × Rat}
    (h : entry ∈ addExponent prime exponent exponents) :
    entry.1 = prime ∨ ∃ old ∈ exponents, old.1 = entry.1 := by
  induction exponents with
  | nil => exact .inl (congrArg Prod.fst (List.mem_singleton.mp h))
  | cons first rest ih =>
      obtain ⟨other, old⟩ := first
      rw [addExponent] at h
      split_ifs at h with hlt heq
      · rcases List.mem_cons.mp h with rfl | h
        · exact .inl rfl
        · exact .inr ⟨entry, h, rfl⟩
      · rcases List.mem_cons.mp h with rfl | h
        · exact .inl heq.symm
        · exact .inr ⟨entry, List.mem_cons_of_mem _ h, rfl⟩
      · rcases List.mem_cons.mp h with rfl | h
        · exact .inr ⟨_, List.mem_cons_self, rfl⟩
        · exact (ih h).imp id fun ⟨old, hold, heq⟩ =>
            ⟨old, List.mem_cons_of_mem _ hold, heq⟩

theorem ascending_addExponent (h : exponents.Pairwise fun a b => a.1 < b.1) :
    (addExponent prime exponent exponents).Pairwise fun a b => a.1 < b.1 := by
  induction exponents with
  | nil => exact List.pairwise_singleton _ _
  | cons first rest ih =>
      obtain ⟨other, old⟩ := first
      obtain ⟨hfirst, hrest⟩ := List.pairwise_cons.mp h
      rw [addExponent]
      split_ifs with hlt heq
      · refine List.pairwise_cons.mpr ⟨fun entry hentry => ?_, h⟩
        rcases List.mem_cons.mp hentry with rfl | hentry
        · exact hlt
        · exact hlt.trans (hfirst entry hentry)
      · exact List.pairwise_cons.mpr ⟨hfirst, hrest⟩
      · refine List.pairwise_cons.mpr ⟨fun entry hentry => ?_, ih hrest⟩
        rcases fst_of_mem_addExponent hentry with hnew | ⟨known, hknown, hfst⟩
        · change other < entry.1
          omega
        · exact hfst ▸ hfirst known hknown

theorem IsExponents.addExponent (h : IsExponents large exponents) (htwo : 2 ≤ prime)
    (hwhole : Factor.Whole Factor.defaultLimit prime)
    (hsmall : prime ∉ large → prime.Prime ∧ prime ≤ Factor.defaultLimit) :
    IsExponents large (addExponent prime exponent exponents) where
  ascending := ascending_addExponent h.ascending
  two_le := fun entry hentry => by
    rcases fst_of_mem_addExponent hentry with rfl | ⟨old, hold, hfst⟩
    · exact htwo
    · exact hfst ▸ h.two_le old hold
  whole := fun entry hentry => by
    rcases fst_of_mem_addExponent hentry with rfl | ⟨old, hold, hfst⟩
    · exact hwhole
    · exact hfst ▸ h.whole old hold
  small := fun entry hentry => by
    rcases fst_of_mem_addExponent hentry with rfl | ⟨old, hold, hfst⟩
    · exact hsmall
    · exact hfst ▸ h.small old hold

/-! ## Factors of one integer -/

theorem addFactors_eq {n : Nat} (hn : 1 ≤ n) (power : Rat) (exponents : Exponents) :
    addFactors n power exponents = .ok ((Factor.factors Factor.defaultLimit n).foldl
      (fun exponents factor => Reduce.addExponent factor.1 (factor.2 * power) exponents)
        exponents) := by
  have hpos : ¬ (n : Int) < 1 := by omega
  simp only [addFactors, Strict.factorize, hpos, if_false, Int.toNat_natCast]
  rfl

theorem IsExponents.foldl {factors : List (Nat × Nat)} (h : IsExponents large exponents)
    (htwo : ∀ factor ∈ factors, 2 ≤ factor.1)
    (hwhole : ∀ factor ∈ factors, Factor.Whole Factor.defaultLimit factor.1)
    (hsmall : ∀ factor ∈ factors, factor.1 ∉ large →
      factor.1.Prime ∧ factor.1 ≤ Factor.defaultLimit) :
    IsExponents large (factors.foldl
      (fun exponents factor => Reduce.addExponent factor.1 (factor.2 * power) exponents)
        exponents) := by
  induction factors generalizing exponents with
  | nil => exact h
  | cons factor rest ih =>
      rw [List.forall_mem_cons] at htwo hwhole hsmall
      exact ih (h.addExponent htwo.1 hwhole.1 hsmall.1) htwo.2 hwhole.2 hsmall.2

/-- If only the last member may fail a condition, one value names all that fail. -/
theorem exists_of_pairwise {factors : List (Nat × Nat)} (good : Nat → Prop)
    (h : factors.Pairwise fun a _ => good a.1) :
    ∃ last, ∀ factor ∈ factors, factor.1 ≠ last → good factor.1 := by
  induction factors with
  | nil => exact ⟨0, by simp⟩
  | cons factor rest ih =>
      obtain ⟨hfirst, hrest⟩ := List.pairwise_cons.mp h
      match rest with
      | [] => exact ⟨factor.1, by simp⟩
      | next :: others =>
          obtain ⟨last, hlast⟩ := ih hrest
          exact ⟨last, List.forall_mem_cons.mpr
            ⟨fun _ => hfirst next List.mem_cons_self, hlast⟩⟩

/-- At most one number that an integer contributes is no small prime. -/
theorem IsExponents.addFactors {n : Nat} (h : IsExponents large exponents) (hn : 1 ≤ n)
    (power : Rat) :
    ∃ last exponents', Reduce.addFactors n power exponents = .ok exponents' ∧
      IsExponents (last :: large) exponents' := by
  have hfactors : Factor.IsFactorization Factor.defaultLimit 2 n
      (Factor.factors Factor.defaultLimit n) := Factor.isFactorization_factors hn
  obtain ⟨last, hlast⟩ := exists_of_pairwise
    (fun q => q.Prime ∧ q ≤ Factor.defaultLimit) hfactors.small
  refine ⟨last, _, addFactors_eq hn power exponents, ?_⟩
  refine (h.mono (List.subset_cons_self last large)).foldl hfactors.two_le hfactors.whole ?_
  intro factor hfactor hnew
  exact hlast factor hfactor fun heq => hnew (heq ▸ List.mem_cons_self)

/-! ## Factors of all bases -/

/-- A base that can be factored, or minus one. -/
def IsFactorable (base : Rat) : Prop := base = -1 ∨ ∃ n : Nat, 1 ≤ n ∧ base = n

theorem collectExponents_append (radicals : List (Rat × Rat)) (base power : Rat) :
    collectExponents (radicals ++ [(base, power)]) = do
      let (turn, exponents) ← collectExponents radicals
      if base = -1 then .ok (turn + power, exponents)
      else return (turn, ← addFactors (Ratio.truncate base) power exponents) := by
  rw [collectExponents, List.foldlM_append]
  exact bind_congr fun _ => by simp

theorem exists_natCast_of_two_le {base : Rat} (hden : base.den = 1) (htwo : 2 ≤ base) :
    ∃ n : Nat, 1 ≤ n ∧ base = n := by
  have hnum : (base.num : Rat) = base := (Rat.den_eq_one_iff base).mp hden
  have htwo' : 2 ≤ base.num := by
    rw [← hnum] at htwo
    exact_mod_cast htwo
  refine ⟨base.num.toNat, by omega, ?_⟩
  rw [← hnum]
  exact_mod_cast (Int.toNat_of_nonneg (by omega : 0 ≤ base.num)).symm

theorem truncate_natCast (n : Nat) : Ratio.truncate (n : Rat) = n := by
  simp [Ratio.truncate]

/-- Factorable bases have exponents, and each of them contributes at most one number
that is no small prime. -/
theorem exists_collectExponents {radicals : List (Rat × Rat)}
    (hradicals : ∀ radical ∈ radicals, IsFactorable radical.1) :
    ∃ large turn exponents, collectExponents radicals = .ok (turn, exponents) ∧
      IsExponents large exponents ∧ large.length ≤ radicals.length := by
  induction radicals using List.reverseRecOn with
  | nil => exact ⟨[], 0, [], rfl, isExponents_nil, le_rfl⟩
  | append_singleton rest radical ih =>
      obtain ⟨base, power⟩ := radical
      rw [List.forall_mem_append, List.forall_mem_singleton] at hradicals
      obtain ⟨large, turn, exponents, hrest, hexponents, hlength⟩ := ih hradicals.1
      rw [collectExponents_append, hrest, List.length_append, List.length_singleton]
      simp only [bind, Except.bind]
      by_cases hbase : base = -1
      · rw [if_pos hbase]
        exact ⟨large, _, exponents, rfl, hexponents, by omega⟩
      · rw [if_neg hbase]
        obtain ⟨n, hn, hvalue⟩ := hradicals.2.resolve_left hbase
        obtain ⟨last, exponents', hadd, hexponents'⟩ := hexponents.addFactors hn power
        refine ⟨last :: large, turn, exponents', ?_, hexponents', ?_⟩
        · change base = n at hvalue
          rw [hvalue, truncate_natCast, hadd]
          rfl
        · rw [List.length_cons]
          omega

/-! ## Groups -/

/-- The fractional part of an exponent. -/
def fraction (exponent : Rat) : Rat := exponent - exponent.floor

theorem fraction_nonneg (exponent : Rat) : 0 ≤ fraction exponent :=
  sub_nonneg.mpr (Rat.floor_le exponent)

theorem fraction_lt_one (exponent : Rat) : fraction exponent < 1 := by
  have hlt : exponent < ((exponent.floor + 1 : Int) : Rat) := Rat.lt_floor_add_one exponent
  push_cast at hlt
  unfold fraction
  linarith

/-- The numbers with a given fractional part. -/
def members (power : Rat) (exponents : Exponents) : List Nat :=
  (exponents.filter fun entry => decide (fraction entry.2 = power)).map Prod.fst

theorem mem_putRoot_of_ne {groups : List (Rat × Nat)} {group : Rat × Nat}
    (h : group.1 ≠ power) : group ∈ putRoot power prime groups ↔ group ∈ groups := by
  induction groups with
  | nil =>
      obtain ⟨other, base⟩ := group
      simpa [putRoot] using fun heq => absurd heq h
  | cons first rest ih =>
      obtain ⟨other, base⟩ := first
      rw [putRoot]
      split_ifs with heq
      · subst heq
        simp only [List.mem_cons]
        refine or_congr_left ⟨?_, ?_⟩ <;> rintro rfl <;> exact absurd rfl h
      · simp only [List.mem_cons, ih]

theorem mem_putRoot_self {groups : List (Rat × Nat)} {base : Nat}
    (h : (groups.map Prod.fst).Nodup) :
    (power, base) ∈ putRoot power prime groups ↔
      (∃ old, (power, old) ∈ groups ∧ base = old * prime) ∨
        ((∀ group ∈ groups, group.1 ≠ power) ∧ base = prime) := by
  induction groups with
  | nil => simp [putRoot]
  | cons first rest ih =>
      obtain ⟨other, old⟩ := first
      obtain ⟨hfresh, hrest⟩ := List.nodup_cons.mp h
      rw [putRoot]
      split_ifs with heq
      · subst heq
        have hnone : ∀ base, (other, base) ∉ rest := fun base hmem =>
          hfresh (List.mem_map.mpr ⟨_, hmem, rfl⟩)
        simp [hnone]
      · simp [ih hrest, heq, Ne.symm heq]

theorem powers_putRoot {groups : List (Rat × Nat)} (h : (groups.map Prod.fst).Nodup) :
    ((putRoot power prime groups).map Prod.fst).Nodup := by
  induction groups with
  | nil => simp [putRoot]
  | cons first rest ih =>
      obtain ⟨other, old⟩ := first
      obtain ⟨hfresh, hrest⟩ := List.nodup_cons.mp h
      rw [putRoot]
      split_ifs with heq
      · exact h
      · refine List.nodup_cons.mpr ⟨?_, ih hrest⟩
        simp only [List.mem_map, not_exists, not_and] at hfresh ⊢
        rintro group hgroup hfst
        rw [mem_putRoot_of_ne (by rw [hfst]; exact heq)] at hgroup
        exact hfresh group hgroup hfst

theorem fractionalPart_append (exponents : Exponents) (entry : Nat × Rat) :
    fractionalPart (exponents ++ [entry]) =
      if fraction entry.2 = 0 then fractionalPart exponents
      else putRoot (fraction entry.2) entry.1 (fractionalPart exponents) := by
  rw [fractionalPart, List.foldl_append]
  rfl

theorem powers_fractionalPart (exponents : Exponents) :
    ((fractionalPart exponents).map Prod.fst).Nodup := by
  induction exponents using List.reverseRecOn with
  | nil => exact List.nodup_nil
  | append_singleton rest entry ih =>
      rw [fractionalPart_append]
      split_ifs
      · exact ih
      · exact powers_putRoot ih

theorem members_append (power : Rat) (exponents : Exponents) (entry : Nat × Rat) :
    members power (exponents ++ [entry]) =
      members power exponents ++ if fraction entry.2 = power then [entry.1] else [] := by
  rw [members, List.filter_append, List.map_append]
  by_cases h : fraction entry.2 = power <;> simp [members, h]

/-- A group is the product of the numbers with its fractional exponent. -/
theorem mem_fractionalPart {base : Nat} :
    (power, base) ∈ fractionalPart exponents ↔
      power ≠ 0 ∧ members power exponents ≠ [] ∧ base = (members power exponents).prod := by
  induction exponents using List.reverseRecOn generalizing base with
  | nil => simp [fractionalPart, members]
  | append_singleton rest entry ih =>
      rw [fractionalPart_append, members_append]
      by_cases hpower : fraction entry.2 = power
      · subst hpower
        rw [if_pos rfl]
        by_cases hzero : fraction entry.2 = 0
        · rw [if_pos hzero, ih]
          simp [hzero]
        · rw [if_neg hzero, mem_putRoot_self (powers_fractionalPart rest)]
          by_cases hnil : members (fraction entry.2) rest = []
          · have hnone : ∀ group ∈ fractionalPart rest, group.1 ≠ fraction entry.2 := by
              rintro ⟨other, old⟩ hgroup hfst
              change other = fraction entry.2 at hfst
              subst hfst
              exact (ih.mp hgroup).2.1 hnil
            have hmissing : ∀ old, (fraction entry.2, old) ∉ fractionalPart rest :=
              fun old hgroup => hnone _ hgroup rfl
            simp only [hmissing, false_and, exists_false, false_or, hnil]
            simp [hzero]
            exact fun _ other old hgroup => hnone (other, old) hgroup
          · have hsome : (fraction entry.2, (members (fraction entry.2) rest).prod) ∈
                fractionalPart rest := ih.mpr ⟨hzero, hnil, rfl⟩
            have hnot : ¬ ∀ group ∈ fractionalPart rest, group.1 ≠ fraction entry.2 :=
              fun hall => hall _ hsome rfl
            simp only [hnot, false_and, or_false, ih]
            simp [hzero, hnil]
      · rw [if_neg hpower, List.append_nil]
        split_ifs
        · exact ih
        · rw [mem_putRoot_of_ne (Ne.symm hpower), ih]

/-! ## Bases of groups -/

theorem mem_members {n : Nat} :
    n ∈ members power exponents ↔ ∃ x, (n, x) ∈ exponents ∧ fraction x = power := by
  simp [members]

theorem IsExponents.nodup (h : IsExponents large exponents) : (exponents.map Prod.fst).Nodup :=
  List.pairwise_map.mpr (h.ascending.imp fun hlt => hlt.ne)

theorem IsExponents.nodup_members (h : IsExponents large exponents) (power : Rat) :
    (members power exponents).Nodup :=
  (List.filter_sublist.map Prod.fst).nodup h.nodup

theorem IsExponents.power_eq_of_mem {n : Nat} {p q : Rat} (h : IsExponents large exponents)
    (hp : n ∈ members p exponents) (hq : n ∈ members q exponents) : p = q := by
  obtain ⟨x, hx, rfl⟩ := mem_members.mp hp
  obtain ⟨y, hy, rfl⟩ := mem_members.mp hq
  cases List.inj_on_of_nodup_map h.nodup hx hy rfl
  rfl

/-- A small prime divides a group only as one of its numbers. -/
theorem IsExponents.mem_of_dvd {q : Nat} (h : IsExponents large exponents) (hq : q.Prime)
    (hlimit : q ≤ Factor.defaultLimit) (hdvd : q ∣ (members power exponents).prod) :
    q ∈ members power exponents := by
  obtain ⟨n, hn, hqn⟩ := (Prime.dvd_prod_iff hq.prime).mp hdvd
  obtain ⟨x, hx, -⟩ := mem_members.mp hn
  rcases h.whole _ hx with hprime | hrough
  · rwa [(Nat.prime_dvd_prime_iff_eq hq hprime).mp hqn]
  · have := hrough q hq hqn
    omega

/-- With two large numbers at most, different groups have different bases. -/
theorem IsExponents.power_eq_of_base {p q : Rat} {base : Nat} (h : IsExponents large exponents)
    (hlarge : large.length ≤ 2) (hp : (p, base) ∈ fractionalPart exponents)
    (hq : (q, base) ∈ fractionalPart exponents) : p = q := by
  by_contra hne
  obtain ⟨-, hpne, hpbase⟩ := mem_fractionalPart.mp hp
  obtain ⟨-, hqne, hqbase⟩ := mem_fractionalPart.mp hq
  have hsubset : ∀ {p q : Rat}, p ≠ q → base = (members p exponents).prod →
      base = (members q exponents).prod → members p exponents ⊆ large := by
    intro p q hne hp hq n hn
    by_contra hsmall
    obtain ⟨x, hx, -⟩ := mem_members.mp hn
    obtain ⟨hprime, hlimit⟩ := h.small _ hx hsmall
    refine hne (h.power_eq_of_mem hn (h.mem_of_dvd hprime hlimit ?_))
    rw [← hq, hp]
    exact List.dvd_prod hn
  have hdisjoint : (members p exponents ++ members q exponents).Nodup := by
    refine List.nodup_append.mpr ⟨h.nodup_members p, h.nodup_members q, ?_⟩
    rintro n hn _ hm rfl
    exact hne (h.power_eq_of_mem hn hm)
  have hlength := (hdisjoint.subperm (List.append_subset.mpr
    ⟨hsubset hne hpbase hqbase, hsubset (Ne.symm hne) hqbase hpbase⟩)).length_le
  rw [List.length_append] at hlength
  have hppos := List.length_pos_iff.mpr hpne
  have hqpos := List.length_pos_iff.mpr hqne
  -- each group is one large number
  obtain ⟨m, hm⟩ := List.length_eq_one_iff.mp (by omega : (members p exponents).length = 1)
  obtain ⟨n, hn⟩ := List.length_eq_one_iff.mp (by omega : (members q exponents).length = 1)
  have heq : m = n := by
    rw [hm, List.prod_singleton] at hpbase
    rw [hn, List.prod_singleton] at hqbase
    exact hpbase.symm.trans hqbase
  rw [hm, hn, heq] at hdisjoint
  simp at hdisjoint

theorem IsExponents.two_le_base {base : Nat} (h : IsExponents large exponents)
    (hbase : (power, base) ∈ fractionalPart exponents) : 2 ≤ base := by
  obtain ⟨-, hne, rfl⟩ := mem_fractionalPart.mp hbase
  obtain ⟨n, hn⟩ := List.exists_mem_of_ne_nil _ hne
  have htwo : ∀ m ∈ members power exponents, 2 ≤ m := by
    intro m hm
    obtain ⟨x, hx, -⟩ := mem_members.mp hm
    exact h.two_le _ hx
  have hpos : 0 < (members power exponents).prod :=
    List.prod_pos fun m hm => Nat.lt_of_lt_of_le Nat.zero_lt_two (htwo m hm)
  exact (htwo n hn).trans (Nat.le_of_dvd hpos (List.dvd_prod hn))

end ExactAlgebra.Reduce
