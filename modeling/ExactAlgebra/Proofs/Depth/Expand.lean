import ExactAlgebra.Proofs.Depth.Potential
import ExactAlgebra.Proofs.Depth.Settles

/-!
# Expansion of sums

A product with a sum reaches a result if the products with its terms do, and so does a
power of a sum.  Neither makes potential: a power has at most that of the exponent with
which it was written.
-/

namespace ExactAlgebra.Reduce

open ExactAlgebra.Expr

variable {mode : Mode} {rules : Discipline} {a b base : Expr} {bound n k : Nat} {p : Rat}

/-! ## Products of smaller operands -/

/-- Canonical, and with a potential within a bound. -/
def Within (rules : Discipline) (bound : Nat) (node : Expr) : Prop :=
  Canonical rules node ∧ node.potential ≤ bound

theorem Within.mono {bound' : Nat} {node : Expr} (h : Within rules bound node)
    (hle : bound ≤ bound') : Within rules bound' node :=
  ⟨h.1, h.2.trans hle⟩

/-- What the product of two expressions is like.  A product of terms is a term, unless
potential was spent on it. -/
structure IsProductOf (rules : Discipline) (a b node : Expr) : Prop where
  within : Within rules (a.potential + b.potential) node
  term : a.isExpandedSum = false → b.isExpandedSum = false →
    node.isExpandedSum = false ∨ node.potential < a.potential + b.potential

/-- Operands that weigh less than a bound have a product. -/
def Multiplies (rules : Discipline) (mode : Mode) (n : Nat) : Prop :=
  ∀ ⦃a b⦄, Canonical rules a → Canonical rules b → a.load + b.load < n →
    Reaches (fun depth => combineFactors mode depth a b) (IsProductOf rules a b)

theorem Multiplies.mono {n' : Nat} (h : Multiplies rules mode n) (hle : n' ≤ n) :
    Multiplies rules mode n' :=
  fun _ _ ha hb hload => h ha hb (hload.trans_le hle)

/-! ## Products with sums -/

/-- The sum of the products with some terms. -/
theorem reaches_expansion (hrules : rules.Admissible mode) {slots : Slots}
    (hproduct : ∀ slot ∈ slots,
      Reaches (fun depth => combineFactors mode depth slot.2 b) (Within rules bound)) :
    Reaches (fun depth => slots.children.foldlM (fun total term => do
      plus total (← combineFactors mode depth term b)) (.number 0)) (Within rules bound) := by
  refine .foldlM (fun _ => Within rules bound) ⟨.number 0, Nat.zero_le _⟩ ?_
  intro before term after hsplit total htotal
  have hterm : term ∈ slots.children := hsplit ▸ List.mem_append_right before List.mem_cons_self
  obtain ⟨slot, hslot, rfl⟩ := List.mem_map.mp hterm
  refine (hproduct slot hslot).bind fun product hproduct => ?_
  obtain ⟨sum, hplus, hsum, hlinear⟩ := totals_plus hrules.constant htotal.1 hproduct.1
  rw [hplus]
  have hle := Canonical.potential_le_of_linear htotal.1 hproduct.1 hsum hlinear
  exact .ok ⟨hsum, hle.trans (max_le htotal.2 hproduct.2)⟩

theorem reaches_distribute (hrules : rules.Admissible mode) (ih : Multiplies rules mode n)
    (ha : Canonical rules a) (hb : Canonical rules b)
    (hleft : a.isExpandedSum = true → ∀ slot ∈ a.slots, slot.2.load + b.load < n)
    (hright : a.isExpandedSum = false →
      b.isSum = true ∧ ∀ slot ∈ b.slots, slot.2.load + a.load < n) :
    Reaches (fun depth => distribute mode depth a b)
      (Within rules (a.potential + b.potential)) := by
  have hexpansion {sum other : Expr} (hcanonical : Canonical rules sum)
      (hother : Canonical rules other) (hsum : sum.isSum = true)
      (hload : ∀ slot ∈ sum.slots, slot.2.load + other.load < n) :
      Reaches (fun depth => sum.slots.children.foldlM (fun total term => do
        plus total (← combineFactors mode depth term other)) (.number 0))
        (Within rules (sum.potential + other.potential)) := by
    refine reaches_expansion hrules fun slot hslot => ?_
    refine (ih (hcanonical.slots slot hslot) hother (hload slot hslot)).mono fun node hnode => ?_
    exact hnode.within.mono (Nat.add_le_add_right (potential_le_of_mem_sum hsum hslot) _)
  refine .succ rfl ?_
  cases hasum : a.isExpandedSum with
  | true =>
      have hsum := (isExpandedSum_iff.mp hasum).1
      simp only [(distribute_eq mode _ b hsum).1 hasum]
      exact hexpansion ha hb hsum (hleft hasum)
  | false =>
      obtain ⟨hsum, hload⟩ := hright hasum
      simp only [(distribute_eq mode _ a hsum).2 hasum]
      rw [add_comm]
      exact hexpansion hb ha hsum hload

/-- The product with a sum, if the operands have little potential. -/
theorem reaches_distribute_of_potential (hrules : rules.Admissible mode)
    (ih : Multiplies rules mode n) (ha : Canonical rules a) (hb : Canonical rules b)
    (hsum : b.isSum = true) (hn : 5 * (a.potential + b.potential) + 4 < n) :
    Reaches (fun depth => distribute mode depth a b)
      (Within rules (a.potential + b.potential)) := by
  refine reaches_distribute hrules ih ha hb (fun hasum slot hslot => ?_)
    fun _ => ⟨hsum, fun slot hslot => ?_⟩
  · have := potential_le_of_mem_slots hasum hslot
    have := load_le slot.2
    have := load_le b
    omega
  · have := potential_le_of_mem_sum hsum hslot
    have := load_le slot.2
    have := load_le a
    omega

/-! ## Powers of sums -/

theorem reaches_expandPower (hrules : rules.Admissible mode) (ih : Multiplies rules mode n)
    (hbase : Canonical rules base) (hsum : base.isSum = true) (hk : 1 ≤ k)
    (hn : 5 * (k * base.potential) + 4 < n) :
    Reaches (fun depth => expandPower mode depth base k)
      (Within rules (k * base.potential)) := by
  refine .succ rfl ?_
  simp only [expandPower]
  have hloop : Reaches (fun depth => (List.range (k - 1)).foldlM
      (fun result _ => distribute mode depth result base) base)
      (Within rules (((List.range (k - 1)).length + 1) * base.potential)) := by
    -- after as many factors as have been used, the power has the potential of one more
    refine .foldlM (fun before => Within rules ((before.length + 1) * base.potential))
      ⟨hbase, by simp⟩ ?_
    intro before item after hsplit power hpower
    have hlength : before.length + 2 ≤ k := by
      have := congrArg List.length hsplit
      simp only [List.length_range, List.length_append, List.length_cons] at this
      omega
    have hle : power.potential + base.potential ≤ (before.length + 2) * base.potential := by
      have := hpower.2
      linarith
    have hbound := Nat.mul_le_mul_right base.potential hlength
    refine (reaches_distribute_of_potential hrules ih hpower.1 hbase hsum (by omega)).mono
      fun node hnode => hnode.mono ?_
    simpa using hle
  rwa [List.length_range, Nat.sub_add_cancel hk] at hloop

theorem raiseBase_of_isExpandedSum (mode : Mode) (fuel : Nat) (hsum : base.isExpandedSum = true)
    (hzero : p ≠ 0) (hone : p ≠ 1) :
    raiseBase mode (fuel + 1) base (.rational p) =
      if 1 < p then do
        let whole ← if 1 < p.floor.toNat then expandPower mode fuel base p.floor.toNat
          else .ok base
        if (p.floor.toNat : Rat) = p then return whole
        else distribute mode fuel whole (base.withPower (p - p.floor.toNat))
      else .ok (base.withPower p) := by
  rw [raiseBase.eq_def]
  cases base <;> simp only [isExpandedSum, isSum, Bool.false_and, Bool.false_eq_true] at hsum <;>
    simp only [asNode, asExponent, hzero, hone, if_false]

/-- The integral part of an exponent above one, and whether it is rounded up from there. -/
theorem floor_lt_ceil (hone : 1 < p) : 1 ≤ p.floor.toNat ∧ p.floor.toNat ≤ ⌈p⌉₊ ∧
    ((p.floor.toNat : Rat) ≠ p → p.floor.toNat < ⌈p⌉₊) := by
  have hfloor : (1 : Int) ≤ p.floor := Rat.le_floor_iff.mpr (by exact_mod_cast hone.le)
  have hcast : ((p.floor.toNat : Nat) : Rat) = p.floor := by
    exact_mod_cast Int.toNat_of_nonneg (by omega : 0 ≤ p.floor)
  have hle : (p.floor.toNat : Rat) ≤ p := by
    rw [hcast]
    exact Rat.floor_le p
  refine ⟨by omega, ?_, fun hne => Nat.lt_ceil.mpr (lt_of_le_of_ne hle hne)⟩
  exact_mod_cast hle.trans (Nat.le_ceil p)

theorem powerPotential_eq (n : Nat) (p : Rat) :
    powerPotential n p = ⌈p⌉₊ * n + n + ⌈p⌉₊ + 1 := by
  rw [powerPotential]
  ring

theorem potential_withPower_fraction (hsum : base.isExpandedSum = true) (hpos : 0 < p)
    (hlt : p < 1) : (base.withPower p).potential = 2 * base.potential + 2 := by
  have hceil : ⌈p⌉₊ = 1 := by
    rw [Nat.ceil_eq_iff one_ne_zero]
    exact ⟨by simpa using hpos, by simpa using hlt.le⟩
  rw [potential_withPower hsum hlt.ne, powerPotential_eq, hceil]
  ring

/-- The integral power of a sum, times the root that is left. -/
theorem reaches_raiseRest (hrules : rules.Admissible mode) (ih : Multiplies rules mode n)
    (hbase : Canonical rules base) (hsum : base.isExpandedSum = true) (hlt : 1 < p)
    (hn : 5 * powerPotential base.potential p ≤ n) {whole : Expr}
    (hwhole : Within rules (p.floor.toNat * base.potential) whole) :
    Reaches (fun depth => if (p.floor.toNat : Rat) = p then return whole
      else distribute mode depth whole (base.withPower (p - p.floor.toNat)))
      (Within rules (powerPotential base.potential p)) := by
  obtain ⟨hfloor, hceil, hstrict⟩ := floor_lt_ceil hlt
  have hle := hwhole.2
  have hpower := powerPotential_eq base.potential p
  split_ifs with hinteger
  · have hbound := Nat.mul_le_mul_right base.potential hceil
    exact .ok (hwhole.mono (by omega))
  · obtain ⟨hrestpos, hrestlt⟩ := sub_floor_toNat hlt hinteger
    have hroot := potential_withPower_fraction hsum hrestpos hrestlt
    have hrootsum : (base.withPower (p - p.floor.toNat)).isSum = true := by
      cases base <;> first | rfl | cases hsum
    have hceil' := hstrict hinteger
    have hbound := Nat.mul_le_mul_right base.potential hceil'
    rw [Nat.succ_mul] at hbound
    exact (reaches_distribute_of_potential hrules ih hwhole.1
      (canonical_withPower hrules hbase hsum (.inr ⟨hrestpos, hrestlt⟩)) hrootsum
      (by omega)).mono fun node hnode => hnode.mono (by omega)

/-- A rational power of a sum has the potential of the exponent at most. -/
theorem reaches_raiseSum (hrules : rules.Admissible mode) (ih : Multiplies rules mode n)
    (hbase : Canonical rules base) (hsum : base.isExpandedSum = true)
    (hn : 5 * powerPotential base.potential p ≤ n) :
    Reaches (fun depth => raiseBase mode depth base (.rational p))
      (Within rules (powerPotential base.potential p)) := by
  have hnumber : base.isNumber = false := by
    cases base <;> first | rfl | cases hsum
  refine .succ rfl ?_
  by_cases hzero : p = 0
  · simp only [hzero, raiseBase_zero hnumber]
    exact .ok ⟨.number 1, Nat.zero_le _⟩
  by_cases hone : p = 1
  · have hself (fuel : Nat) : raiseBase mode (fuel + 1) base (.rational 1) = .ok base := by
      rw [raiseBase.eq_def]
      cases base <;> first | rfl | cases hsum
    simp only [hone, hself]
    exact .ok ⟨hbase, le_powerPotential _ _⟩
  simp only [raiseBase_of_isExpandedSum mode _ hsum hzero hone]
  by_cases hlt : 1 < p
  · obtain ⟨hpos, hceil, -⟩ := floor_lt_ceil hlt
    have hpower := powerPotential_eq base.potential p
    have hbound := Nat.mul_le_mul_right base.potential hceil
    simp only [if_pos hlt]
    by_cases hmany : 1 < p.floor.toNat
    · simp only [if_pos hmany]
      exact (reaches_expandPower hrules ih hbase (isExpandedSum_iff.mp hsum).1 hpos
        (by omega)).bind fun whole => reaches_raiseRest hrules ih hbase hsum hlt hn
    · simp only [if_neg hmany]
      exact (Reaches.ok ⟨hbase, Nat.le_mul_of_pos_left _ hpos⟩).bind
        fun whole => reaches_raiseRest hrules ih hbase hsum hlt hn
  · simp only [if_neg hlt]
    refine .ok ⟨canonical_withPower hrules hbase hsum ?_, (potential_withPower hsum hone).le⟩
    rcases lt_or_gt_of_ne hzero with hneg | hpos
    · exact .inl hneg
    · exact .inr ⟨hpos, lt_of_le_of_ne (not_lt.mp hlt) hone⟩

end ExactAlgebra.Reduce
