import ExactAlgebra.Proofs.Depth.Operations
import ExactAlgebra.Proofs.Depth.Stable
import ExactAlgebra.Proofs.Value.SumPower
import ExactAlgebra.Proofs.Value.SumRoot

/-!
# Products with roots of sums

Two roots of a sum may make the sum itself, which is expanded over the product it stands in.  The
products of its terms with the other factors may meet further roots, so the induction is on the
depth of calls: at each depth a product, if there is one, is read as the product.
-/

namespace ExactAlgebra

open ExactAlgebra.Expr Reduce
open FormalReading (rooted)

/-! ## Outcomes -/

namespace Valuation

variable {A : Type*} [CommRing A] [Algebra ℚ A] {V : Valuation A} {mode : Mode} {fuel : Nat}
  {a b start : Expr} {outcome outcome' : Except Fault Expr} {x y : A}

/-- The result, if there is one, is an expression with a given value. -/
def Yields (V : Valuation A) (outcome : Except Fault Expr) (x : A) : Prop :=
  ∀ node, outcome = .ok node → Canonical V.rules node ∧ V.value node = x

theorem Yields.error (fault : Fault) : V.Yields (.error fault) x := by
  rintro _ ⟨⟩

theorem Yields.ok (h : Canonical V.rules a) : V.Yields (.ok a) (V.value a) := by
  rintro _ ⟨⟩
  exact ⟨h, rfl⟩

theorem Results.yields (h : V.Results outcome x) : V.Yields outcome x := by
  obtain ⟨node, rfl, hnode, rfl⟩ := h
  exact .ok hnode

theorem Yields.bind {next : Expr → Except Fault Expr} (h : V.Yields outcome x)
    (hnext : ∀ node, Canonical V.rules node → V.value node = x → V.Yields (next node) y) :
    V.Yields (outcome >>= next) y := by
  cases outcome with
  | error fault => exact .error fault
  | ok node => exact hnext node (h node rfl).1 (h node rfl).2

theorem Yields.map_scale (c : ℚ) (h : V.Yields outcome x) :
    V.Yields (outcome.map (scale c)) (c • x) := by
  cases outcome with
  | error fault => exact .error fault
  | ok node =>
      obtain ⟨hnode, rfl⟩ := h node rfl
      exact Results.yields ⟨_, rfl, canonical_scale_any V.hereditary c hnode, V.value_scale c node⟩

/-- What holds within some depth of calls holds within less. -/
theorem Yields.of_extends (h : V.Yields outcome' x) (hextends : Extends outcome outcome') :
    V.Yields outcome x := by
  rcases hextends with rfl | rfl
  · exact .error _
  · exact h

variable (V) in
/-- Within some depth of calls, products have the products of the values. -/
def MultipliesWithin (mode : Mode) (fuel : Nat) : Prop :=
  ∀ a b, Canonical V.rules a → Canonical V.rules b →
    V.Yields (combineFactors mode fuel a b) (V.value a * V.value b)

theorem MultipliesWithin.pred (h : V.MultipliesWithin mode (fuel + 1)) :
    V.MultipliesWithin mode fuel := fun a b ha hb =>
  (h a b ha hb).of_extends ((stable mode fuel).combineFactors a b)

theorem yields_plus (ha : Canonical V.rules a) (hb : Canonical V.rules b) :
    V.Yields (plus a b) (V.value a + V.value b) := (V.results_plus ha hb).yields

/-- A sum times an expression is the sum of the products of its terms. -/
theorem yields_expand (ih : V.MultipliesWithin mode fuel) (ha : Canonical V.rules a)
    (hsum : a.isExpandedSum = true) (hb : Canonical V.rules b) :
    V.Yields (expand mode fuel a.slots b) (V.value a * V.value b) := by
  have hfold : ∀ {slots : Slots} {start}, (∀ slot ∈ slots, Canonical V.rules slot.2) →
      Canonical V.rules start → V.Yields (slots.children.foldlM (fun total term => do
        plus total (← combineFactors mode fuel term b)) start)
        (V.value start + (slots.map fun slot => V.value slot.2).sum * V.value b) := by
    intro slots
    induction slots with
    | nil =>
        intro start _ hstart
        rw [List.map_nil, List.sum_nil, zero_mul, add_zero]
        exact .ok hstart
    | cons slot rest ihrest =>
        intro start hslots hstart
        obtain ⟨hslot, hrest⟩ := List.forall_mem_cons.mp hslots
        refine Yields.bind (Yields.bind (ih slot.2 b hslot hb) fun product hproduct hvalue =>
          hvalue ▸ yields_plus hstart hproduct) fun total htotal hvalue => ?_
        rw [List.map_cons, List.sum_cons, add_mul, ← add_assoc, ← hvalue]
        exact ihrest hrest htotal
  have h := hfold ha.slots (.number 0)
  rwa [V.value_number, map_zero, zero_add, ← V.value_of_isExpandedSum hsum] at h

theorem yields_distribute (ih : V.MultipliesWithin mode fuel) (ha : Canonical V.rules a)
    (hb : Canonical V.rules b) (hsum : a.isExpandedSum = true ∨ b.isExpandedSum = true) :
    V.Yields (distribute mode fuel a b) (V.value a * V.value b) := by
  cases fuel with
  | zero => exact .error _
  | succ fuel =>
      cases hasum : a.isExpandedSum with
      | true =>
          rw [(distribute_eq mode fuel b (isExpandedSum_iff.mp hasum).1).1 hasum]
          exact yields_expand ih.pred ha hasum hb
      | false =>
          have hbsum : b.isExpandedSum = true := by simpa [hasum] using hsum
          rw [(distribute_eq mode fuel a (isExpandedSum_iff.mp hbsum).1).2 hasum, mul_comm]
          exact yields_expand ih.pred hb hbsum ha

theorem yields_expandPower (ih : V.MultipliesWithin mode fuel) (ha : Canonical V.rules a)
    (hsum : a.isExpandedSum = true) {n : ℕ} (hn : 1 ≤ n) :
    V.Yields (expandPower mode fuel a n) (V.value a ^ n) := by
  cases fuel with
  | zero => exact .error _
  | succ fuel =>
      have hfold : ∀ (steps : List ℕ) {start}, Canonical V.rules start →
          V.Yields (steps.foldlM (fun result _ => distribute mode fuel result a) start)
            (V.value start * V.value a ^ steps.length) := by
        intro steps
        induction steps with
        | nil =>
            intro start hstart
            rw [List.length_nil, pow_zero, mul_one]
            exact .ok hstart
        | cons step rest ihrest =>
            intro start hstart
            refine Yields.bind (yields_distribute ih.pred hstart ha (.inr hsum))
              fun next hnext hvalue => ?_
            rw [List.length_cons, pow_succ', ← mul_assoc, ← hvalue]
            exact ihrest hnext
      have hpower := hfold (List.range (n - 1)) ha
      rw [expandPower.eq_def]
      rwa [List.length_range, ← pow_succ', Nat.sub_add_cancel hn] at hpower

theorem yields_expansion (ih : V.MultipliesWithin mode fuel) (ha : Canonical V.rules a)
    (hsum : a.isExpandedSum = true) {n : ℕ} (hn : 1 ≤ n) :
    V.Yields (expansion mode fuel a n) (V.value a ^ n) := by
  rw [expansion]
  split_ifs with hlt
  · exact yields_expandPower ih ha hsum hn
  · obtain rfl : n = 1 := by omega
    rw [pow_one]
    exact .ok ha

/-- A step that multiplies with a power of each factor multiplies with the power of all. -/
theorem yields_foldlM {slots : Slots} {step : Expr → Expr → Except Fault Expr} {n : ℕ}
    (hstep : ∀ slot ∈ slots, ∀ total, Canonical V.rules total →
      V.Yields (step total slot.2) (V.value total * V.value slot.2 ^ n))
    (ha : Canonical V.rules a) : V.Yields (slots.children.foldlM step a)
      (V.value a * (slots.map fun slot => V.value slot.2).prod ^ n) := by
  induction slots generalizing a with
  | nil =>
      rw [List.map_nil, List.prod_nil, one_pow, mul_one]
      exact .ok ha
  | cons slot rest ih =>
      obtain ⟨hslot, hrest⟩ := List.forall_mem_cons.mp hstep
      refine Yields.bind (hslot a ha) fun next hnext hvalue => ?_
      rw [List.map_cons, List.prod_cons, mul_pow, ← mul_assoc, ← hvalue]
      exact ih hrest hnext

end Valuation

open ExactAlgebra.Valuation (roots)

variable {mode : Mode} {hasRoots : Key → Prop} {fuel : Nat} {slots slots' : Slots}
  {a b base old factor node : Expr} {outcome : Except Fault Expr} {p : Rat}

/-! ## Terms -/

theorem results_of_formsTerm {x : FormalSum}
    (h : FormsTerm (rooted mode hasRoots) outcome ((rooted mode hasRoots).read x)) :
    (roots mode hasRoots).Results outcome (readRoots mode hasRoots x) := by
  obtain ⟨node, hok, hnode, -, hvalue⟩ := h
  exact ⟨node, hok, hnode, (value_roots node).trans (readRoots_congr hvalue)⟩

theorem Reduce.IsTermPart.areRooted (h : IsTermPart (rooted mode hasRoots) slots) :
    AreRooted mode hasRoots (exponentsOf slots.children) := by
  rw [← exponents_collapse one_ne_zero h]
  exact Canonical.areRooted (canonical_collapse_product (Discipline.rooted_hereditary mode hasRoots)
    one_ne_zero h.part h.canonical) (isExpandedSum_collapse one_ne_zero h)

theorem Reduce.IsTermPart.value_collapse (h : IsTermPart (rooted mode hasRoots) slots) :
    (roots mode hasRoots).value (collapse (.product 1 1 slots)) =
      readRoots mode hasRoots (.single (exponentsOf slots.children) 1) := by
  rw [value_roots, formal_collapse one_ne_zero h]

/-- A term that is read as the product of two terms has the product of their values. -/
theorem results_of_product (h : IsTermPart (rooted mode hasRoots) slots)
    (h' : IsTermPart (rooted mode hasRoots) slots')
    (hforms : FormsTerm (rooted mode hasRoots) outcome
      ((rooted mode hasRoots).readSlots slots * (rooted mode hasRoots).readSlots slots')) :
    (roots mode hasRoots).Results outcome
      ((roots mode hasRoots).value (collapse (.product 1 1 slots)) *
        (roots mode hasRoots).value (collapse (.product 1 1 slots'))) := by
  rw [FormalReading.readSlots, FormalReading.readSlots, ← map_mul,
    AddMonoidAlgebra.single_mul_single] at hforms
  rw [h.value_collapse, h'.value_collapse, ← h.areRooted.readRoots_add h'.areRooted]
  exact results_of_formsTerm hforms

theorem Reduce.IsTermPart.value_cons {slot : Key × Expr}
    (h : IsTermPart (rooted mode hasRoots) (slot :: slots)) :
    (roots mode hasRoots).value (collapse (.product 1 1 (slot :: slots))) =
      (roots mode hasRoots).value slot.2 *
        (roots mode hasRoots).value (collapse (.product 1 1 slots)) := by
  have hslot : IsTermPart (rooted mode hasRoots) (keyed [slot.2]) := by
    rw [h.keyed_snd List.mem_cons_self]
    exact h.sublist (List.singleton_sublist.mpr List.mem_cons_self)
  have hrest := h.sublist (List.sublist_cons_self slot slots)
  have hvalue := hslot.value_collapse
  have hchildren : exponentsOf (Slots.children (slot :: slots)) =
      exponentsOf (Slots.children (keyed [slot.2])) + exponentsOf slots.children := by
    rw [← exponentsOf_append]
    rfl
  rw [collapse_keyed] at hvalue
  rw [h.value_collapse, hvalue, hrest.value_collapse, hchildren,
    ← hslot.areRooted.readRoots_add hrest.areRooted, mul_one]

/-- A term has the product of the values of its factors. -/
theorem Reduce.IsTermPart.value_eq_prod (h : IsTermPart (rooted mode hasRoots) slots) :
    (roots mode hasRoots).value (collapse (.product 1 1 slots)) =
      (slots.map fun slot => (roots mode hasRoots).value slot.2).prod := by
  induction slots with
  | nil => exact ((roots mode hasRoots).value_number 1).trans (map_one _)
  | cons slot rest ih =>
      rw [h.value_cons, ih (h.sublist (List.sublist_cons_self slot rest)), List.map_cons,
        List.prod_cons]

theorem Reduce.IsTermPart.value_erase (h : IsTermPart (rooted mode hasRoots) slots)
    {slot : Key × Expr} (hmem : slot ∈ slots) :
    (roots mode hasRoots).value (collapse (.product 1 1 slots)) =
      (roots mode hasRoots).value (collapse (.product 1 1 (Slots.erase slot.1 slots))) *
        (roots mode hasRoots).value slot.2 := by
  have hperm := Slots.perm_cons_erase h.part.distinct hmem
  rw [h.value_eq_prod, (hperm.map _).prod_eq, List.map_cons, List.prod_cons, mul_comm,
    (h.sublist (Slots.erase_sublist slot.1 slots)).value_eq_prod]

/-! ## Powers of a sum that has roots -/

theorem areRooted_single (key : Key) (hp : 0 ≤ p) :
    AreRooted mode hasRoots (.single key (.single constantMark p)) := by
  intro other _
  by_cases heq : other = key
  · exact ⟨⟨p, hp⟩, by rw [heq, Finsupp.single_eq_same]; rfl⟩
  · exact ⟨0, by rw [Finsupp.single_eq_of_ne heq, NNRat.coe_zero, Finsupp.single_zero]⟩

theorem value_root (hfactor : IsLoose (rooted mode hasRoots) factor)
    (hroot : factor.isRootSum = true) : (roots mode hasRoots).value factor =
      readRoots mode hasRoots (.single (.single factor.multiplicativeKey
        (.single constantMark factor.degreePower)) 1) := by
  rw [value_roots, hfactor.formal, Canonical.linear_exponent_of_isPowered
    (isPowered_of_isAtomSum (isRootSum_iff.mp hroot).1)]

theorem IsRadicand.value_withPower (h : IsRadicand mode hasRoots base) (hp : 0 < p) (hlt : p < 1) :
    (roots mode hasRoots).value (base.withPower p) = readRoots mode hasRoots
      (.single (.single base.signature (.single constantMark p)) 1) := by
  rw [value_root (h.isLoose_withPower hp hlt) (h.isRootSum_withPower hp hlt),
    h.multiplicativeKey_withPower hp, degreePower_withPower h.isExpandedSum]

theorem IsRadicand.value_pow (h : IsRadicand mode hasRoots base) (n : Nat) :
    (roots mode hasRoots).value base ^ n = readRoots mode hasRoots
      (.single (.single base.signature (.single constantMark (n : Rat))) 1) := by
  have hvalue : (roots mode hasRoots).value base = readRoots mode hasRoots
      (.single (.single base.signature (.single constantMark 1)) 1) :=
    (value_roots base).trans h.readRoots_formal
  rw [hvalue, ← ((areRooted_single _ zero_le_one).readRoots_nsmul n).2, Finsupp.smul_single,
    Finsupp.smul_single, nsmul_eq_mul, mul_one]

theorem IsRadicand.value_pow_mul (h : IsRadicand mode hasRoots base) (n : Nat) (hp : 0 < p)
    (hlt : p < 1) :
    (roots mode hasRoots).value base ^ n * (roots mode hasRoots).value (base.withPower p) =
      readRoots mode hasRoots
        (.single (.single base.signature (.single constantMark (n + p))) 1) := by
  rw [h.value_pow, h.value_withPower hp hlt,
    ← (areRooted_single _ (Nat.cast_nonneg n)).readRoots_add (areRooted_single _ hp.le),
    ← Finsupp.single_add, ← Finsupp.single_add, mul_one]

/-- A sum that has roots raised to a positive power.  If the power has a fractional part, the
expansion of the integral part is to be a sum. -/
theorem IsRadicand.yields_raiseBase (h : IsRadicand mode hasRoots base)
    (ih : (roots mode hasRoots).MultipliesWithin mode fuel) (hp : 0 < p)
    (hexpands : 1 < p → (p.floor.toNat : Rat) ≠ p → ∀ fuel whole,
      expansion mode fuel base p.floor.toNat = .ok whole → whole.isExpandedSum = true) :
    (roots mode hasRoots).Yields (raiseBase mode fuel base (.rational p))
      (readRoots mode hasRoots (.single (.single base.signature (.single constantMark p)) 1)) := by
  have hnamed : base.isNamed mode.imaginary = true → Ratio.isInteger p = true → p = 1 := by
    have hsum := h.isExpandedSum
    cases base <;> first | cases hsum | exact fun hname => absurd hname Bool.false_ne_true
  cases fuel with
  | zero => exact .error _
  | succ fuel =>
      rcases lt_trichotomy p 1 with hless | rfl | hmore
      · rw [raiseBase_of_isPlain fuel (isPlain_of_isExpandedSum h.canonical h.isExpandedSum)
          ⟨hp.ne', hnamed, fun _ => .inr ⟨hp, hless⟩⟩, ← h.value_withPower hp hless]
        exact .ok (h.isLoose_withPower hp hless).canonical
      · have hone : raiseBase mode (fuel + 1) base (.rational (1 : Nat)) = .ok base :=
          raiseBase_natCast h.isExpandedSum le_rfl
        have hvalue := h.value_pow 1
        rw [Nat.cast_one] at hone hvalue
        rw [hone, ← hvalue, pow_one]
        exact .ok h.canonical
      · have hfloor : 1 ≤ p.floor.toNat := by
          have hle : (1 : Int) ≤ p.floor := Rat.le_floor_iff.mpr (by exact_mod_cast hmore.le)
          omega
        rw [raiseBase_expandedSum h.isExpandedSum hmore]
        cases hwhole : expansion mode fuel base p.floor.toNat with
        | error fault => exact .error fault
        | ok whole =>
            obtain ⟨hcanonical, hvalue⟩ :=
              Valuation.yields_expansion ih.pred h.canonical h.isExpandedSum hfloor whole hwhole
            change (roots mode hasRoots).Yields (ite _ _ _) _
            split_ifs with hinteger
            · rw [h.value_pow, hinteger] at hvalue
              exact hvalue ▸ .ok hcanonical
            · have hrest := sub_floor_toNat hmore hinteger
              have hroot := h.isLoose_withPower hrest.1 hrest.2
              have hsplit := h.value_pow_mul p.floor.toNat hrest.1 hrest.2
              rw [add_sub_cancel, ← hvalue] at hsplit
              rw [← hsplit]
              exact Valuation.yields_distribute ih.pred hcanonical hroot.canonical
                (.inl (hexpands hmore hinteger fuel whole hwhole))

/-! ## Two roots of a sum -/

theorem yields_combinePowers (ih : (roots mode hasRoots).MultipliesWithin mode fuel)
    (hold : IsLoose (rooted mode hasRoots) old) (hfactor : IsLoose (rooted mode hasRoots) factor)
    (hkey : old.multiplicativeKey = factor.multiplicativeKey) (hroot : old.isRootSum = true) :
    (roots mode hasRoots).Yields (combinePowers mode fuel old factor)
      ((roots mode hasRoots).value old * (roots mode hasRoots).value factor) := by
  have hroot' := isRootSum_of_key hold hfactor hkey hroot
  obtain ⟨hatom, hpos⟩ := isRootSum_iff.mp hroot
  obtain ⟨hatom', hpos'⟩ := isRootSum_iff.mp hroot'
  have hlt := hold.canonical.degreePower_lt_one hroot
  have hlt' := hfactor.canonical.degreePower_lt_one hroot'
  have hbase := hold.canonical.isRadicand_baseOf hroot
  have hfloor : (old.degreePower + factor.degreePower).floor.toNat ≤ 1 := by
    have hnot : ¬ (2 : Int) ≤ (old.degreePower + factor.degreePower).floor := by
      rw [Rat.le_floor_iff]
      push_cast
      linarith
    omega
  have hsum : (roots mode hasRoots).value old * (roots mode hasRoots).value factor =
      readRoots mode hasRoots (.single (.single old.baseOf.signature
        (.single constantMark (old.degreePower + factor.degreePower))) 1) := by
    rw [value_root hold hroot, value_root hfactor hroot', ← hkey,
      multiplicativeKey_of_isRootSum hroot, ← (areRooted_single _ hpos.le).readRoots_add
      (areRooted_single _ hpos'.le), ← Finsupp.single_add, ← Finsupp.single_add, mul_one]
  cases fuel with
  | zero => exact .error _
  | succ fuel =>
      have hstep : combinePowers mode (fuel + 1) old factor =
          raiseBase mode fuel old.baseOf (.rational (old.degreePower + factor.degreePower)) := by
        rw [combinePowers.eq_def]
        simp only [exponent_of_isPowered (isPowered_of_isAtomSum hatom),
          exponent_of_isPowered (isPowered_of_isAtomSum hatom'), addExponents, hold.coeff,
          hfactor.coeff, mul_one, bind, Except.bind, scale_one]
        exact bind_pure (m := Except Fault) _
      rw [hstep, hsum]
      -- the exponents add up to less than two, so that nothing is expanded
      refine hbase.yields_raiseBase ih.pred (add_pos hpos hpos') fun _ _ fuel whole hwhole => ?_
      rw [expansion, if_neg (not_lt.mpr hfloor)] at hwhole
      obtain rfl := Except.ok.inj hwhole
      exact hbase.isExpandedSum

/-! ## A term and a root -/

theorem Valuation.Yields.multiplyContent_of_add {A : Type*} [CommRing A] [Algebra ℚ A]
    {V : Valuation A} {x : A} {extra : Nat}
    (h : V.Yields (multiplyContent mode (fuel + extra) a b) x) :
    V.Yields (multiplyContent mode fuel a b) x := by
  induction extra with
  | zero => exact h
  | succ extra ih => exact ih (h.of_extends ((stable mode (fuel + extra)).multiplyContent a b))

/-- A root joins a term, in which there may be a root of the same sum. -/
theorem yields_multiplyContent_root (ih : (roots mode hasRoots).MultipliesWithin mode fuel)
    (h : IsTermPart (rooted mode hasRoots) slots) (hne : slots ≠ [])
    (hfactor : IsLoose (rooted mode hasRoots) factor) (hroot : factor.isRootSum = true)
    (hab : (a = collapse (.product 1 1 slots) ∧ b = factor) ∨
      (a = factor ∧ b = collapse (.product 1 1 slots))) :
    (roots mode hasRoots).Yields (multiplyContent mode fuel a b)
      ((roots mode hasRoots).value (collapse (.product 1 1 slots)) *
        (roots mode hasRoots).value factor) := by
  cases hfind : Slots.find? factor.multiplicativeKey slots with
  | none =>
      have hforms : FormsTerm (rooted mode hasRoots) (multiplyContent mode (fuel + 2) a b) _ :=
        formsTerm_multiplyContent_fresh fuel h hne hfactor (Slots.find?_eq_none_iff.mp hfind) hab
      have hresults := results_of_product h
        (.singleton hfactor.canonical hfactor.isFactor hfactor.coeff) hforms
      rw [collapse_keyed] at hresults
      exact hresults.yields.multiplyContent_of_add
  | some old =>
      have hmem := Slots.mem_of_find? hfind
      have hkey : old.multiplicativeKey = factor.multiplicativeKey := (h.part.key _ hmem).symm
      have hold : IsLoose (rooted mode hasRoots) old := hfactor.of_multiplicativeKey
        (h.canonical _ hmem) (h.part.factor _ hmem) (h.part.coeff _ hmem) hkey
      have holdroot := isRootSum_of_key hfactor hold hkey.symm hroot
      cases fuel with
      | zero => exact .error _
      | succ fuel =>
          match slots, hne with
          | [slot], _ =>
              obtain rfl : (factor.multiplicativeKey, old) = slot := List.mem_singleton.mp hmem
              rw [show collapse (.product 1 1 [(factor.multiplicativeKey, old)]) = old
                from scale_one _] at hab ⊢
              rcases hab with ⟨rfl, rfl⟩ | ⟨rfl, rfl⟩
              · rw [multiplyContent_of_isFactor mode _ hold.isFactor hfactor.isFactor
                  (.inl hold.group), if_pos hkey]
                exact yields_combinePowers ih.pred hold hfactor hkey holdroot
              · rw [multiplyContent_of_isFactor mode _ hfactor.isFactor hold.isFactor
                  (.inl hfactor.group), if_pos hkey.symm, mul_comm]
                exact yields_combinePowers ih.pred hfactor hold hkey.symm hroot
          | first :: second :: rest, _ =>
              have hinsert : (roots mode hasRoots).Yields
                  (insertFactor mode fuel (.product 1 1 (first :: second :: rest)) factor)
                  ((roots mode hasRoots).value
                      (collapse (.product 1 1 (first :: second :: rest))) *
                    (roots mode hasRoots).value factor) := by
                rw [h.value_erase hmem, mul_assoc]
                cases fuel with
                | zero => exact .error _
                | succ fuel =>
                    have herase := h.sublist
                      (Slots.erase_sublist factor.multiplicativeKey (first :: second :: rest))
                    rw [insertFactor_of_group_ne mode _ 1 _ hfactor.isExpandedSum hfactor.group,
                      hfind]
                    refine (yields_combinePowers ih.pred.pred hold hfactor hkey holdroot).bind
                      fun merged hmerged hvalue => ?_
                    rw [← hvalue]
                    exact ih.pred.pred _ _ (canonical_collapse_product
                      (Discipline.rooted_hereditary mode hasRoots) one_ne_zero herase.part
                      herase.canonical) hmerged
              obtain ⟨hleft, hright⟩ := multiplyContent_insert mode fuel 1
                (first :: second :: rest) hfactor.isFactor
              rcases hab with ⟨rfl, rfl⟩ | ⟨rfl, rfl⟩
              · exact hleft ▸ hinsert
              · exact hright ▸ hinsert

/-! ## Products -/

theorem yields_multiplyContent_factor (hmode : mode.numeric = false)
    (ih : (roots mode hasRoots).MultipliesWithin mode fuel)
    (h : IsTermPart (rooted mode hasRoots) slots) (hne : slots ≠ []) {slot : Key × Expr}
    (hslot : IsTermPart (rooted mode hasRoots) [slot])
    (hab : (a = collapse (.product 1 1 slots) ∧ b = collapse (.product 1 1 [slot])) ∨
      (a = collapse (.product 1 1 [slot]) ∧ b = collapse (.product 1 1 slots))) :
    (roots mode hasRoots).Yields (multiplyContent mode fuel a b)
      ((roots mode hasRoots).value (collapse (.product 1 1 slots)) *
        (roots mode hasRoots).value (collapse (.product 1 1 [slot]))) := by
  have hmem : slot ∈ [slot] := List.mem_cons_self
  have hfactor := hslot.part.factor slot hmem
  have hcoeff := hslot.part.coeff slot hmem
  have hcanonical := hslot.canonical slot hmem
  cases hroot : slot.2.isRootSum with
  | true =>
      have hgroup : slot.2.group ≠ .radical := by
        intro hgroup
        cases hnode : slot.2 <;> simp_all [group, isRootSum, isAtomSum, isSum]
      rw [← hslot.keyed_snd hmem, collapse_keyed] at hab ⊢
      exact yields_multiplyContent_root ih h hne ⟨hcanonical, hfactor, hcoeff, hgroup⟩ hroot hab
  | false =>
      have hkeyed := hab
      rw [← hslot.keyed_snd hmem, collapse_keyed] at hkeyed
      have hforms := hcanonical.joins hmode hfactor hcoeff hroot fuel slots a b h hne hkeyed
      rw [hslot.keyed_snd hmem] at hforms
      exact (results_of_product h hslot hforms).yields.multiplyContent_of_add

theorem yields_multiplyContent_terms (hmode : mode.numeric = false)
    (ih : (roots mode hasRoots).MultipliesWithin mode fuel)
    (h : IsTermPart (rooted mode hasRoots) slots) (hne : slots ≠ [])
    (h' : IsTermPart (rooted mode hasRoots) slots') (hne' : slots' ≠ []) :
    (roots mode hasRoots).Yields (multiplyContent mode fuel (collapse (.product 1 1 slots))
        (collapse (.product 1 1 slots')))
      ((roots mode hasRoots).value (collapse (.product 1 1 slots)) *
        (roots mode hasRoots).value (collapse (.product 1 1 slots'))) := by
  rcases slots' with _ | ⟨slot', _ | ⟨second', rest'⟩⟩
  · exact absurd rfl hne'
  · exact yields_multiplyContent_factor hmode ih h hne h' (.inl ⟨rfl, rfl⟩)
  rcases slots with _ | ⟨slot, _ | ⟨second, rest⟩⟩
  · exact absurd rfl hne
  · rw [mul_comm]
    exact yields_multiplyContent_factor hmode ih h' hne' h (.inr ⟨rfl, rfl⟩)
  · cases fuel with
    | zero => exact .error _
    | succ fuel =>
        have hstart := canonical_collapse_product (Discipline.rooted_hereditary mode hasRoots)
          one_ne_zero h.part h.canonical
        have hfold : (roots mode hasRoots).Yields _ _ := Valuation.yields_foldlM (n := 1)
          (fun slot hslot total htotal => by
            rw [pow_one]
            exact ih.pred total slot.2 htotal (h'.canonical slot hslot)) hstart
        rw [← h'.value_eq_prod, pow_one] at hfold
        rw [multiplyContent.eq_def]
        exact hfold

theorem Valuation.yields_multiplyContent_sum {A : Type*} [CommRing A] [Algebra ℚ A]
    {V : Valuation A} (ih : V.MultipliesWithin mode fuel) (ha : Canonical V.rules a)
    (hb : Canonical V.rules b) (hsum : a.isExpandedSum = true ∨ b.isExpandedSum = true) :
    V.Yields (multiplyContent mode fuel a b) (V.value a * V.value b) := by
  cases fuel with
  | zero => exact .error _
  | succ fuel =>
      have hinsert : ∀ {total factor}, Canonical V.rules total → Canonical V.rules factor →
          factor.isExpandedSum = true →
          V.Yields (insertFactor mode fuel total factor) (V.value total * V.value factor) := by
        intro total factor htotal hfactor hfactorsum
        cases fuel with
        | zero => exact .error _
        | succ fuel =>
            rw [insertFactor.eq_def]
            simp only [hfactorsum, if_true]
            exact yields_distribute ih.pred.pred htotal hfactor (.inr hfactorsum)
      rw [multiplyContent.eq_def]
      dsimp only
      split
      next => simp [isExpandedSum, isSum] at hsum
      next => exact hinsert ha hb (by simpa [isExpandedSum, isSum] using hsum)
      next =>
        rw [mul_comm]
        exact hinsert hb ha (by simpa [isExpandedSum, isSum] using hsum)
      next =>
        rw [if_pos (Bool.or_eq_true_iff.mpr hsum)]
        exact yields_distribute ih.pred ha hb hsum

theorem yields_multiplyContent (hmode : mode.numeric = false)
    (ih : (roots mode hasRoots).MultipliesWithin mode fuel)
    (ha : Canonical (.rooted mode hasRoots) a) (hb : Canonical (.rooted mode hasRoots) b)
    (hanumber : a.isNumber = false) (hbnumber : b.isNumber = false) :
    (roots mode hasRoots).Yields (multiplyContent mode fuel (a.withCoeff 1) (b.withCoeff 1))
      ((roots mode hasRoots).value (a.withCoeff 1) *
        (roots mode hasRoots).value (b.withCoeff 1)) := by
  by_cases hsum : a.isExpandedSum = true ∨ b.isExpandedSum = true
  · exact Valuation.yields_multiplyContent_sum ih ha.withCoeff_one hb.withCoeff_one
      (by simpa using hsum)
  · obtain ⟨hasum, hbsum⟩ := not_or.mp hsum
    obtain ⟨slots, hne, hslots, hacontent, -⟩ :=
      ha.exists_content (Bool.not_eq_true _ ▸ hasum) hanumber
    obtain ⟨slots', hne', hslots', hbcontent, -⟩ :=
      hb.exists_content (Bool.not_eq_true _ ▸ hbsum) hbnumber
    rw [hacontent, hbcontent]
    exact yields_multiplyContent_terms hmode ih hslots hne hslots' hne'

/-- At every depth, products of expressions with roots of sums are read as products. -/
theorem multipliesWithin (hmode : mode.numeric = false) (fuel : Nat) :
    (roots mode hasRoots).MultipliesWithin mode fuel := by
  induction fuel with
  | zero => exact fun a b _ _ => .error _
  | succ fuel ih =>
      intro a b ha hb
      cases hanumber : a.isNumber with
      | true =>
          obtain ⟨c, rfl⟩ := exists_eq_number hanumber
          exact ((roots mode hasRoots).results_number c hb).1.yields
      | false =>
      cases hbnumber : b.isNumber with
      | true =>
          obtain ⟨c, rfl⟩ := exists_eq_number hbnumber
          exact ((roots mode hasRoots).results_number c ha).2.yields
      | false =>
          obtain ⟨x, y, hxy, hstep⟩ := combineFactors_eq_map mode hanumber hbnumber
          rw [hstep, (roots mode hasRoots).value_mul_eq_smul ha hb]
          refine Valuation.Yields.map_scale _ ?_
          rcases hxy with ⟨rfl, rfl⟩ | ⟨rfl, rfl⟩
          · exact yields_multiplyContent hmode ih ha hb hanumber hbnumber
          · rw [mul_comm]
            exact yields_multiplyContent hmode ih hb ha hbnumber hanumber

namespace Arithmetic

theorem results_multiply_rooted (hmode : mode.numeric = false)
    (ha : Canonical (.rooted mode hasRoots) a) (hb : Canonical (.rooted mode hasRoots) b) :
    (roots mode hasRoots).Results (multiply mode a b)
      ((roots mode hasRoots).value a * (roots mode hasRoots).value b) := by
  obtain ⟨node, hok, -, hlate⟩ :=
    exists_multiply_late hmode ha.proper_of_rooted hb.proper_of_rooted
  obtain ⟨depth, hdepth⟩ := hlate.exists
  obtain ⟨hnode, hvalue⟩ := multipliesWithin hmode depth a b ha hb node hdepth
  exact ⟨node, hok, hnode, hvalue⟩

end Arithmetic

end ExactAlgebra
