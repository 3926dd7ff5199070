import ExactAlgebra.Proofs.Number.Valuation

/-!
# Powers of products of roots

If a number multiplies all exponents of a product of powers into integers, then the product
to that number is rational.  Factoring the bases, splitting off integral parts and grouping
the rest by exponent leave it as it is, as the exponents of primes show.
-/

namespace ExactAlgebra

/-! ## Fractions of one denominator -/

/-- A rational that is an integer divided by a given number. -/
def IsFraction (n : Nat) (p : Rat) : Prop := ∃ k : Int, n * p = k

/-- The integer part of a multiple. -/
def multiple (n : Nat) (p : Rat) : Int := ⌊n * p⌋

variable {n : Nat} {p q : Rat}

theorem IsFraction.cast_multiple (h : IsFraction n p) : (multiple n p : Rat) = n * p := by
  obtain ⟨k, hk⟩ := h
  rw [multiple, hk, Int.floor_intCast]

theorem multiple_of_eq {k : Int} (h : n * p = k) : multiple n p = k := by
  rw [multiple, h, Int.floor_intCast]

theorem isFraction_intCast (n : Nat) (k : Int) : IsFraction n k := ⟨n * k, by push_cast; rfl⟩

theorem IsFraction.add (hp : IsFraction n p) (hq : IsFraction n q) : IsFraction n (p + q) := by
  obtain ⟨j, hj⟩ := hp
  obtain ⟨k, hk⟩ := hq
  exact ⟨j + k, by rw [mul_add, hj, hk]; push_cast; rfl⟩

theorem IsFraction.neg (hp : IsFraction n p) : IsFraction n (-p) := by
  obtain ⟨j, hj⟩ := hp
  exact ⟨-j, by rw [mul_neg, hj]; push_cast; rfl⟩

theorem IsFraction.int_mul (hp : IsFraction n p) (k : Int) : IsFraction n (k * p) := by
  obtain ⟨j, hj⟩ := hp
  exact ⟨k * j, by rw [mul_left_comm, hj]; push_cast; rfl⟩

theorem IsFraction.nat_mul (hp : IsFraction n p) (k : Nat) : IsFraction n (k * p) := by
  exact_mod_cast hp.int_mul k

theorem IsFraction.fraction (hp : IsFraction n p) : IsFraction n (Reduce.fraction p) := by
  rw [Reduce.fraction, sub_eq_add_neg]
  exact hp.add (isFraction_intCast n p.floor).neg

theorem multiple_add (hp : IsFraction n p) (q : Rat) :
    multiple n (p + q) = multiple n p + multiple n q := by
  obtain ⟨j, hj⟩ := hp
  rw [multiple_of_eq hj, multiple, multiple, mul_add, hj, Int.floor_intCast_add]

theorem multiple_neg (hp : IsFraction n p) : multiple n (-p) = -multiple n p := by
  obtain ⟨j, hj⟩ := hp
  rw [multiple_of_eq hj, multiple_of_eq (k := -j) (by rw [mul_neg, hj, Int.cast_neg])]

@[simp] theorem multiple_one (n : Nat) : multiple n 1 = n := multiple_of_eq (by simp)

theorem ratio_power_eq_zpow (base : Rat) (k : Int) : Ratio.power base k = base ^ k := by
  unfold Ratio.power
  split_ifs with hk
  · rw [← zpow_natCast, Int.toNat_of_nonneg hk]
  · rw [← zpow_natCast, Int.toNat_of_nonneg (by omega), zpow_neg, inv_inv]

/-! ## Values -/

/-- A product of powers, given by base and exponent, to the power of a number. -/
def powerValue (n : Nat) (roots : List (Rat × Rat)) : Rat :=
  (roots.map fun root => root.1 ^ multiple n root.2).prod

section

variable (n : Nat) (root : Rat × Rat) (roots roots' : List (Rat × Rat))

@[simp] theorem powerValue_nil : powerValue n [] = 1 := rfl

@[simp] theorem powerValue_cons :
    powerValue n (root :: roots) = root.1 ^ multiple n root.2 * powerValue n roots :=
  List.prod_cons

@[simp] theorem powerValue_append :
    powerValue n (roots ++ roots') = powerValue n roots * powerValue n roots' := by
  simp [powerValue]

end

variable {roots roots' : List (Rat × Rat)}

theorem powerValue_pos (h : ∀ root ∈ roots, 0 < root.1) : 0 < powerValue n roots :=
  List.prod_pos (List.forall_mem_map.mpr fun root hroot => zpow_pos (h root hroot) _)

/-- Powers of positive numbers whose exponents are fractions of one denominator. -/
def ArePowers (n : Nat) (roots : List (Rat × Rat)) : Prop :=
  ∀ root ∈ roots, 0 < root.1 ∧ IsFraction n root.2

theorem ArePowers.cons {root : Rat × Rat} (hbase : 0 < root.1) (hpower : IsFraction n root.2)
    (h : ArePowers n roots) : ArePowers n (root :: roots) :=
  List.forall_mem_cons.mpr ⟨⟨hbase, hpower⟩, h⟩

theorem padicValRat_powerValue (prime : Nat) [Fact prime.Prime] (h : ArePowers n roots) :
    (padicValRat prime (powerValue n roots) : Rat) = n * primeExponent prime roots := by
  induction roots with
  | nil => simp
  | cons root rest ih =>
      obtain ⟨⟨hbase, hpower⟩, hrest⟩ := List.forall_mem_cons.mp h
      have hvalue := powerValue_pos (n := n) fun root hroot => (hrest root hroot).1
      rw [powerValue_cons, padicValRat.mul (zpow_ne_zero _ hbase.ne') hvalue.ne',
        padicValRat.zpow, primeExponent_cons, mul_add, ← ih hrest]
      push_cast
      rw [hpower.cast_multiple]
      ring

/-- The exponents of the primes determine the power. -/
theorem powerValue_congr (h : ArePowers n roots) (h' : ArePowers n roots')
    (hsame : ∀ (prime : Nat) [Fact prime.Prime],
      primeExponent prime roots = primeExponent prime roots') :
    powerValue n roots = powerValue n roots' := by
  refine eq_of_padicValRat_eq (powerValue_pos fun root hroot => (h root hroot).1)
    (powerValue_pos fun root hroot => (h' root hroot).1) fun prime _ => ?_
  have heq := congrArg (fun x : Rat => n * x) (hsame prime)
  simp only [← padicValRat_powerValue prime h, ← padicValRat_powerValue prime h'] at heq
  exact_mod_cast heq

namespace Reduce

variable {exponents exponents' : Exponents} {radicals : List (Rat × Rat)} {base power : Rat}

/-! ## Exponents of factors -/

/-- Exponents that are fractions of one denominator. -/
def AreFractions (n : Nat) (exponents : Exponents) : Prop :=
  ∀ entry ∈ exponents, IsFraction n entry.2

theorem AreFractions.addExponent (h : AreFractions n exponents) (prime : Nat)
    (hpower : IsFraction n power) : AreFractions n (addExponent prime power exponents) := by
  induction exponents with
  | nil => exact List.forall_mem_singleton.mpr hpower
  | cons first rest ih =>
      obtain ⟨hfirst, hrest⟩ := List.forall_mem_cons.mp h
      rw [Reduce.addExponent]
      split_ifs
      · exact List.forall_mem_cons.mpr ⟨hpower, h⟩
      · exact List.forall_mem_cons.mpr ⟨hfirst.add hpower, hrest⟩
      · exact List.forall_mem_cons.mpr ⟨hfirst, ih hrest⟩

theorem AreFractions.addFactors (h : AreFractions n exponents) (hpower : IsFraction n power)
    {m : Nat} (hm : 1 ≤ m) (hadd : addFactors m power exponents = .ok exponents') :
    AreFractions n exponents' := by
  rw [addFactors_eq hm, Except.ok.injEq] at hadd
  rw [← hadd]
  generalize Factor.factors Factor.defaultLimit m = factors
  clear hadd
  induction factors generalizing exponents with
  | nil => exact h
  | cons factor rest ih => exact ih (h.addExponent factor.1 (hpower.nat_mul factor.2))

theorem IsExponents.arePowers {large : List Nat} (h : IsExponents large exponents)
    (hfractions : AreFractions n exponents) : ArePowers n (asRoots exponents) := by
  refine List.forall_mem_map.mpr fun entry hentry => ⟨?_, hfractions entry hentry⟩
  have htwo := h.two_le entry hentry
  exact Nat.cast_pos.mpr (by omega)

/-- Collecting exponents keeps the value of a product of powers. -/
theorem exists_collectExponents_value
    (h : ∀ radical ∈ radicals, IsFactorable radical.1 ∧ IsFraction n radical.2) :
    ∃ large turn exponents, collectExponents radicals = .ok (turn, exponents) ∧
      IsExponents large exponents ∧ IsFraction n turn ∧ AreFractions n exponents ∧
      powerValue n radicals = (-1) ^ multiple n turn * powerValue n (asRoots exponents) := by
  induction radicals using List.reverseRecOn with
  | nil =>
      refine ⟨[], 0, [], rfl, isExponents_nil, ?_, by simp [AreFractions], ?_⟩
      · exact_mod_cast isFraction_intCast n 0
      · simp [multiple, asRoots]
  | append_singleton rest radical ih =>
      obtain ⟨base, power⟩ := radical
      obtain ⟨hrest, hlast⟩ := List.forall_mem_append.mp h
      obtain ⟨hbase, hpower⟩ := hlast _ (List.mem_singleton_self _)
      obtain ⟨large, turn, exponents, hcollect, hexponents, hturn, hfractions, hvalue⟩ := ih hrest
      rw [collectExponents_append, hcollect]
      rcases hbase with rfl | ⟨m, hm, rfl⟩
      · refine ⟨large, turn + power, exponents, rfl, hexponents, hturn.add hpower, hfractions, ?_⟩
        rw [powerValue_append, hvalue, multiple_add hturn, zpow_add₀ (by norm_num)]
        simp only [powerValue_cons, powerValue_nil]
        ring
      · obtain ⟨last, exponents', hadd, hexponents'⟩ := hexponents.addFactors hm power
        have hfractions' := hfractions.addFactors hpower hm hadd
        have hminus : ¬ ((m : Rat) = -1) :=
          IsWhole.ne_neg_one ⟨m, hm, rfl⟩
        have hpos : (0 : Rat) < m := by exact_mod_cast hm
        have hmore : powerValue n (asRoots exponents') =
            powerValue n (((m : Rat), power) :: asRoots exponents) :=
          powerValue_congr (hexponents'.arePowers hfractions')
            (.cons hpos hpower (hexponents.arePowers hfractions)) fun q _ => by
              rw [primeExponent_addFactors q hm power hadd, primeExponent_cons]
        refine ⟨last :: large, turn, exponents', ?_, hexponents', hturn, hfractions', ?_⟩
        · simp only [bind, Except.bind, if_neg hminus, truncate_natCast, hadd]
          rfl
        · rw [powerValue_append, hvalue, hmore]
          simp only [powerValue_cons, powerValue_nil]
          ring

theorem AreFractions.group (h : AreFractions n exponents) {group : Rat × Nat}
    (hgroup : group ∈ fractionalPart exponents) : IsFraction n group.1 := by
  obtain ⟨-, hne, -⟩ := mem_fractionalPart.mp hgroup
  obtain ⟨m, hm⟩ := List.exists_mem_of_ne_nil _ hne
  obtain ⟨x, hx, hpower⟩ := mem_members.mp hm
  rw [← hpower]
  exact (h _ hx).fraction

/-- The integral part and the groups have the value of the exponents that they were made
from. -/
theorem powerValue_parts {large : List Nat} (h : IsExponents large exponents)
    (hfractions : AreFractions n exponents) :
    integralPart exponents ^ n * powerValue n (rootsOfGroups (fractionalPart exponents)) =
      powerValue n (asRoots exponents) := by
  have hgroups : ArePowers n (rootsOfGroups (fractionalPart exponents)) :=
    List.forall_mem_map.mpr fun group hgroup =>
      ⟨Nat.cast_pos.mpr (base_ne_zero h.two_le group hgroup).bot_lt, hfractions.group hgroup⟩
  have hone : IsFraction n 1 := by exact_mod_cast isFraction_intCast n 1
  have hparts : powerValue n ((integralPart exponents, 1) ::
      rootsOfGroups (fractionalPart exponents)) = powerValue n (asRoots exponents) :=
    powerValue_congr (.cons (integralPart_pos h.two_le) hone hgroups) (h.arePowers hfractions)
      fun q _ => by rw [primeExponent_cons, one_mul, primeExponent_parts q h.two_le]
  rw [← hparts, powerValue_cons, multiple_one, zpow_natCast]

end Reduce

end ExactAlgebra
