import ExactAlgebra.Proofs.Value.SumRootPower

/-!
# Powers as repeated products

A natural power is the product of as many copies, also where it expands sums and their roots.
Fractional powers of minus one are an exception: their products reduce early, to real roots.
-/

namespace ExactAlgebra.Arithmetic

open ExactAlgebra.Expr

variable {mode : Mode} {hasRoots : Key → Prop} {n : Nat} {a start : Expr}

/-- The product of copies of an expression, from left to right. -/
def copies (mode : Mode) (a : Expr) : Nat → Except Fault Expr
  | 0 => .ok (.number 1)
  | further + 1 => (List.replicate further a).foldlM (multiply mode) a

theorem results_foldlM_multiply {A : Type*} [CommRing A] [Algebra Rat A] {V : Valuation A}
    (hmultiply : ∀ {node}, Canonical V.rules node →
      V.Results (multiply mode node a) (V.value node * V.value a))
    (hstart : Canonical V.rules start) (further : Nat) :
    V.Results ((List.replicate further a).foldlM (multiply mode) start)
      (V.value start * V.value a ^ further) := by
  induction further generalizing start with
  | zero => exact ⟨start, rfl, hstart, by simp⟩
  | succ further ih =>
      obtain ⟨next, hok, hnext, hvalue⟩ := hmultiply hstart
      rw [List.replicate_succ, List.foldlM_cons, hok, pow_succ', ← mul_assoc, ← hvalue]
      exact ih hnext

/-- A natural power is the product of copies. -/
theorem agree_pow_copies (hmode : mode.numeric = false) (ha : Canonical (.rooted mode hasRoots) a)
    (hkeeps : ∀ factor ∈ a.factors, KeepsRoot mode n factor) (hn : 1 ≤ n) :
    Agree (pow mode a (.number n)) (copies mode a n) := by
  obtain ⟨power, hpower, hpowercanonical, hpowervalue⟩ := results_pow_rooted hmode ha hkeeps hn
  obtain ⟨further, rfl⟩ := Nat.exists_eq_add_of_le' hn
  obtain ⟨product, hproduct, hproductcanonical, hproductvalue⟩ :=
    results_foldlM_multiply (fun hnode => results_multiply_rooted hmode hnode ha) ha further
  rw [← pow_succ', ← hpowervalue, value_roots, value_roots] at hproductvalue
  exact ⟨power, product, hpower, hproduct,
    (hpowercanonical.equals_iff_readRoots hproductcanonical).mpr hproductvalue.symm⟩

/-- The fifth power of `sqrt(2)*sqrt(x + 1)`. -/
theorem agree_pow_copies_product :
    let x := named "x"
    let terms := [(x.additiveKey, x), (constantMark, .number 1)]
    let hasRoots := fun key => key = Slots.termsKey terms
    let sumRoot := composite 1 (1 / 2) terms
    let root := radical 1 2 (1 / 2)
    let node := Reduce.pairFactors root sumRoot
    Mode.exact.numeric = false ∧ Canonical (.rooted .exact hasRoots) node ∧
      (∀ factor ∈ node.factors, KeepsRoot .exact 5 factor) ∧ 1 ≤ 5 ∧
      Agree (pow .exact node (.number (5 : Nat))) (copies .exact node 5) := by
  intro x terms hasRoots sumRoot root node
  have hsumRoot : Canonical (.rooted .exact hasRoots) sumRoot :=
    .root_of_binomial one_ne_zero ⟨by norm_num, by norm_num⟩ rfl
  have hroot : Canonical (.rooted .exact hasRoots) root :=
    .root_of_prime Nat.prime_two (by decide) ⟨by norm_num, by norm_num⟩
  have hkey : root.multiplicativeKey ≠ sumRoot.multiplicativeKey := by decide +kernel
  have hnode : Canonical (.rooted .exact hasRoots) node :=
    Reduce.canonical_pairFactors (Discipline.rooted_hereditary .exact _) hroot hsumRoot rfl rfl rfl
      (by decide +kernel) hkey (by decide)
  have hfactors : node.factors = [root, sumRoot] := by
    simp only [node, Reduce.pairFactors, Slots.ofList_pair hkey, factors, Slots.children,
      List.map_cons, List.map_nil]
  have hsquare : (pow .exact sumRoot.baseOf
      (.number (sumRoot.degreePower * (5 : Nat)).floor)).map isExpandedSum = .ok true := by
    decide +kernel
  have hsumKeeps : KeepsRoot .exact 5 sumRoot := by
    intro _ _ _
    generalize pow .exact sumRoot.baseOf _ = outcome at hsquare
    cases outcome with
    | error fault => cases hsquare
    | ok whole => exact ⟨whole, rfl, Except.ok.inj hsquare⟩
  have hkeeps : ∀ factor ∈ node.factors, KeepsRoot .exact 5 factor := by
    rw [hfactors, List.forall_mem_cons, List.forall_mem_singleton]
    exact ⟨fun hradical => absurd hradical Bool.false_ne_true, hsumKeeps⟩
  exact ⟨rfl, hnode, hkeeps, by decide, agree_pow_copies rfl hnode hkeeps (by decide)⟩

/-- `((-1)^(1/6))^3` is the imaginary unit, but the square of `(-1)^(1/6)` is already minus one,
the real cube root. -/
theorem not_agree_pow_copies :
    let root := Environment.read "(-1)^(1/6)"
    let left := do pow .exact (← root) (.number 3)
    let right := do copies .exact (← root) 3
    Agree left (Environment.read "i") ∧ Agree right (Environment.read "-(-1)^(1/6)") ∧
      ¬ Agree left right := by
  decide +kernel

end ExactAlgebra.Arithmetic
