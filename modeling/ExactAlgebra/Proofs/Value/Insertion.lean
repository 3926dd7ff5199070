import ExactAlgebra.Proofs.Value.Formal

/-!
# Terms with one more factor

A factor that is no radical joins a term in the slot of its key.  If the slot is free, the
factor takes it; else it unites with the factor there.  The formal sum of the outcome is
read as the product of the formal sums, whatever the other factors are.
-/

namespace ExactAlgebra

open ExactAlgebra.Expr

namespace FormalReading

variable {A : Type*} [CommRing A] [Algebra Rat A] (V : FormalReading A)

/-- What the product of the factors in some slots is read as. -/
noncomputable def readSlots (slots : Slots) : A := V.read (.single (exponentsOf slots.children) 1)

@[simp] theorem readSlots_nil : V.readSlots [] = 1 := map_one V.read

theorem readSlots_append (slots slots' : Slots) :
    V.readSlots (slots ++ slots') = V.readSlots slots * V.readSlots slots' := by
  rw [readSlots, Slots.children, List.map_append, exponentsOf_append, ← one_mul (1 : Rat),
    ← AddMonoidAlgebra.single_mul_single, map_mul]
  rfl

theorem readSlots_perm {slots slots' : Slots} (h : slots.Perm slots') :
    V.readSlots slots = V.readSlots slots' := by
  rw [readSlots, readSlots, Slots.children, exponentsOf_perm (h.map _)]
  rfl

theorem readSlots_keyed_singleton (factor : Expr) : V.readSlots (Reduce.keyed [factor]) =
    V.read (.single (.single factor.multiplicativeKey factor.exponent.linear) 1) := by
  rw [readSlots, Slots.children, Reduce.keyed, List.map_singleton, List.map_singleton,
    exponentsOf_cons, exponentsOf_nil, add_zero]

end FormalReading

namespace Reduce

variable {A : Type*} [CommRing A] [Algebra Rat A] {V : FormalReading A} {mode : Mode}
  {fuel : Nat} {a b node term old factor : Expr} {c : Rat} {slots : Slots} {key : Key}
  {total : Key →₀ Rat} {x z : A}

/-! ## Terms and their slots -/

/-- A factor with coefficient one that is no radical. -/
structure IsLoose (V : FormalReading A) (factor : Expr) : Prop where
  canonical : Canonical V.rules factor
  isFactor : factor.isFactor = true
  coeff : factor.coeff = 1
  group : factor.group ≠ .radical

theorem IsLoose.isNumber (h : IsLoose V factor) : factor.isNumber = false :=
  (isFactor_iff.mp h.isFactor).1

theorem IsLoose.isExpandedSum (h : IsLoose V factor) : factor.isExpandedSum = false :=
  (isFactor_iff.mp h.isFactor).2.2

theorem IsLoose.formal (h : IsLoose V factor) :
    factor.formal = .single (.single factor.multiplicativeKey factor.exponent.linear) 1 := by
  rw [(V.proper h.canonical).formal_of_term h.isExpandedSum, exponents_of_isFactor h.isFactor,
    h.coeff]

/-- The slots of a canonical term, with its coefficient apart. -/
structure IsTermPart (V : FormalReading A) (slots : Slots) : Prop where
  part : IsProductPart V.rules slots
  canonical : ∀ slot ∈ slots, Canonical V.rules slot.2

theorem IsTermPart.nil : IsTermPart V [] := by
  constructor
  · constructor
    case distinct => exact Slots.distinct_nil
    case radicals => exact V.hereditary.nothing
    all_goals exact List.forall_mem_nil _
  · exact List.forall_mem_nil _

theorem IsTermPart.singleton (h : Canonical V.rules node) (hfactor : node.isFactor = true)
    (hcoeff : node.coeff = 1) : IsTermPart V (keyed [node]) := by
  constructor
  · constructor
    case distinct => exact List.nodup_singleton _
    case key => exact List.forall_mem_singleton.mpr rfl
    case coeff => exact List.forall_mem_singleton.mpr hcoeff
    case factor => exact List.forall_mem_singleton.mpr hfactor
    case radicals =>
      cases h with
      | radical _ _ hradicals => exact hradicals
      | _ => exact V.hereditary.nothing
  · exact List.forall_mem_singleton.mpr h

theorem IsTermPart.perm {slots' : Slots} (h : IsTermPart V slots) (hperm : slots.Perm slots') :
    IsTermPart V slots' :=
  ⟨perm_part h.part (V.perm (radicals_perm hperm) h.part.radicals) hperm,
    fun slot hslot => h.canonical slot (hperm.mem_iff.mpr hslot)⟩

theorem IsTermPart.sublist {slots' : Slots} (h : IsTermPart V slots)
    (hsub : slots'.Sublist slots) : IsTermPart V slots' :=
  ⟨h.part.sublist V.hereditary hsub,
    fun slot hslot => h.canonical slot (hsub.subset hslot)⟩

theorem IsTermPart.append (h : IsTermPart V slots) (hfactor : IsLoose V factor)
    (hfresh : ∀ slot ∈ slots, slot.1 ≠ factor.multiplicativeKey) :
    IsTermPart V (slots ++ keyed [factor]) :=
  ⟨h.part.append hfactor.coeff hfactor.isFactor hfactor.group rfl hfresh,
    List.forall_mem_append.mpr ⟨h.canonical, List.forall_mem_singleton.mpr hfactor.canonical⟩⟩

theorem isExpandedSum_collapse (hc : c ≠ 0) (h : IsTermPart V slots) :
    (collapse (.product c 1 slots)).isExpandedSum = false := by
  match slots with
  | [] => rfl
  | [slot] =>
      rw [collapse, isExpandedSum_scale hc]
      exact (isFactor_iff.mp (h.part.factor slot List.mem_cons_self)).2.2
  | first :: second :: rest => rfl

theorem exponents_collapse (hc : c ≠ 0) (h : IsTermPart V slots) :
    (collapse (.product c 1 slots)).exponents = exponentsOf slots.children := by
  match slots with
  | [] => rfl
  | [slot] =>
      have hfactor := h.part.factor slot List.mem_cons_self
      rw [collapse, scale_factor hc (h.part.coeff slot List.mem_cons_self) hfactor,
        exponents_withCoeff, exponents_of_isFactor hfactor, Slots.children, List.map_singleton,
        exponentsOf_cons, exponentsOf_nil, add_zero]
  | first :: second :: rest => rfl

theorem coeff_collapse (hc : c ≠ 0) (h : IsTermPart V slots) :
    (collapse (.product c 1 slots)).coeff = c := by
  by_cases hne : slots = []
  · rw [hne]
    rfl
  · exact (collapse_parts hc h.part hne).2.1

theorem formal_collapse (hc : c ≠ 0) (h : IsTermPart V slots) :
    (collapse (.product c 1 slots)).formal = .single (exponentsOf slots.children) c := by
  have hcanonical := V.proper (canonical_collapse_product V.hereditary hc h.part h.canonical)
  rw [hcanonical.formal_of_term (isExpandedSum_collapse hc h), exponents_collapse hc h,
    coeff_collapse hc h]

/-- A term is its coefficient times its factors. -/
theorem exists_collapse_eq (h : Canonical V.rules term) (hsum : term.isExpandedSum = false)
    (hzero : term.isZero = false) :
    ∃ c slots, c ≠ 0 ∧ IsTermPart V slots ∧ term = collapse (.product c 1 slots) := by
  cases hnumber : term.isNumber with
  | true =>
      obtain ⟨c, rfl⟩ := exists_eq_number hnumber
      exact ⟨c, [], by simpa [isZero] using hzero, .nil, rfl⟩
  | false =>
      by_cases hgroup : term.group = .product
      · obtain ⟨c, slots, rfl, hc, hslots, hfactors⟩ := product_of_group h hgroup
        exact ⟨c, slots, hc, ⟨hslots.part, hfactors⟩, (collapse_two_le hslots.two_le).symm⟩
      · have hfactor : (term.withCoeff 1).isFactor = true := by
          rw [isFactor_withCoeff]
          exact isFactor_iff.mpr ⟨hnumber, hgroup, hsum⟩
        have hc := h.coeff_ne_zero hnumber
        refine ⟨term.coeff, keyed [term.withCoeff 1], hc,
          .singleton h.withCoeff_one hfactor (coeff_withCoeff _ _), ?_⟩
        change term = scale term.coeff (term.withCoeff 1)
        rw [scale_factor hc (coeff_withCoeff _ _) hfactor, withCoeff_withCoeff,
          Expr.withCoeff_coeff]

/-! ## Outcomes -/

/-- The outcome is a term with a given reading. -/
def FormsTerm (V : FormalReading A) (outcome : Except Fault Expr) (x : A) : Prop :=
  ∃ node, outcome = .ok node ∧ Canonical V.rules node ∧ node.isExpandedSum = false ∧
    V.read node.formal = x

theorem FormsTerm.results {outcome : Except Fault Expr} (h : FormsTerm V outcome x) :
    V.valuation.Results outcome x := by
  obtain ⟨node, hok, hnode, -, hformal⟩ := h
  exact ⟨node, hok, hnode, hformal⟩

theorem FormsTerm.map_scale {outcome : Except Fault Expr} (h : FormsTerm V outcome x) (c : Rat) :
    FormsTerm V (outcome.map (scale c)) (c • x) := by
  obtain ⟨node, rfl, hnode, hsum, rfl⟩ := h
  refine ⟨_, rfl, canonical_scale_any V.hereditary c hnode, ?_, V.valuation.value_scale c node⟩
  by_cases hc : c = 0
  · rw [hc, scale_zero]
    rfl
  · rwa [isExpandedSum_scale hc]

theorem formsTerm_collapse (hc : c ≠ 0) (h : IsTermPart V slots) :
    FormsTerm V (.ok (collapse (.product c 1 slots))) (c • V.readSlots slots) := by
  refine ⟨_, rfl, canonical_collapse_product V.hereditary hc h.part h.canonical,
    isExpandedSum_collapse hc h, ?_⟩
  rw [formal_collapse hc h, FormalReading.readSlots, ← map_smul, AddMonoidAlgebra.smul_single,
    smul_eq_mul, mul_one]

theorem formsTerm_number (V : FormalReading A) (c : Rat) :
    FormsTerm V (.ok (.number c)) (algebraMap Rat A c) :=
  ⟨_, rfl, .number c, rfl, V.valuation.value_number c⟩

/-- The product of two terms, from that of their contents in both orders. -/
theorem formsTerm_combineFactors_of_content (mode : Mode) (fuel : Nat) (ha : a.isNumber = false)
    (hb : b.isNumber = false)
    (h : ∀ x y, ((x = a.withCoeff 1 ∧ y = b.withCoeff 1) ∨
        (x = b.withCoeff 1 ∧ y = a.withCoeff 1)) → FormsTerm V (multiplyContent mode fuel x y) z) :
    FormsTerm V (combineFactors mode (fuel + 1) a b) ((a.coeff * b.coeff) • z) := by
  obtain ⟨x, y, hxy, hstep⟩ := combineFactors_eq_map mode ha hb
  rw [hstep]
  refine FormsTerm.map_scale (h _ _ ?_) _
  rcases hxy with ⟨rfl, rfl⟩ | ⟨rfl, rfl⟩
  · exact .inl ⟨rfl, rfl⟩
  · exact .inr ⟨rfl, rfl⟩

/-! ## Two factors -/

theorem multiplyContent_of_isFactor (mode : Mode) (fuel : Nat) (ha : a.isFactor = true)
    (hb : b.isFactor = true) (hgroup : a.group ≠ .radical ∨ b.group ≠ .radical) :
    multiplyContent mode (fuel + 1) a b =
      if a.multiplicativeKey = b.multiplicativeKey then combinePowers mode fuel a b
      else .ok (pairFactors a b) := by
  obtain ⟨hanumber, hagroup, hasum⟩ := isFactor_iff.mp ha
  obtain ⟨hbnumber, hbgroup, hbsum⟩ := isFactor_iff.mp hb
  rw [multiplyContent.eq_def]
  cases a <;> simp only [Expr.isNumber, Expr.group, ne_eq, not_true_eq_false, reduceCtorEq]
      at hanumber hagroup <;>
    cases b <;> simp only [Expr.isNumber, Expr.group, ne_eq, not_true_eq_false, reduceCtorEq]
      at hbnumber hbgroup <;>
    simp_all [Expr.group]

/-- What two factors of one slot make: a constant, or a factor in the same slot. -/
inductive IsUnion (V : FormalReading A) (key : Key) (total : Key →₀ Rat) : Expr → Prop
  | number {c : Rat} (h : V.read (.single (.single key total) 1) = algebraMap Rat A c) :
      IsUnion V key total (.number c)
  | factor {node : Expr} (h : IsLoose V node) (hkey : node.multiplicativeKey = key)
      (hexponent : node.exponent.linear = total) : IsUnion V key total node

theorem IsUnion.one (V : FormalReading A) (key : Key) : IsUnion V key 0 (.number 1) := by
  refine .number ?_
  rw [Finsupp.single_zero, map_one]
  exact map_one V.read

/-- The powers of one base unite, and their exponents add. -/
def Unites (V : FormalReading A) (mode : Mode) (old new : Expr) : Prop :=
  ∀ fuel, ∃ node, combinePowers mode (fuel + 4) old new = .ok node ∧
    IsUnion V new.multiplicativeKey (old.exponent.linear + new.exponent.linear) node

theorem IsUnion.formsTerm (h : IsUnion V key total node) :
    FormsTerm V (.ok node) (V.read (.single (.single key total) 1)) := by
  cases h with
  | number h => exact h ▸ formsTerm_number V _
  | factor h hkey hexponent =>
      exact ⟨_, rfl, h.canonical, h.isExpandedSum, by rw [h.formal, hkey, hexponent]⟩

/-! ## A free slot -/

theorem formsTerm_multiplyContent_fresh (fuel : Nat) (h : IsTermPart V slots) (hne : slots ≠ [])
    (hfactor : IsLoose V factor) (hfresh : ∀ slot ∈ slots, slot.1 ≠ factor.multiplicativeKey)
    (hab : (a = collapse (.product 1 1 slots) ∧ b = factor) ∨
      (a = factor ∧ b = collapse (.product 1 1 slots))) :
    FormsTerm V (multiplyContent mode (fuel + 2) a b)
      (V.readSlots slots * V.readSlots (keyed [factor])) := by
  have happend := h.append hfactor hfresh
  rw [← V.readSlots_append, ← one_smul Rat (V.readSlots _)]
  match slots, hne with
  | [slot], _ =>
      have hother := h.part.factor slot List.mem_cons_self
      have hcoeff := h.part.coeff slot List.mem_cons_self
      have hslot : slot = (slot.2.multiplicativeKey, slot.2) :=
        Prod.ext (h.part.key slot List.mem_cons_self) rfl
      have hkey : slot.2.multiplicativeKey ≠ factor.multiplicativeKey := by
        rw [← h.part.key slot List.mem_cons_self]
        exact hfresh slot List.mem_cons_self
      rw [show collapse (.product 1 1 [slot]) = slot.2 from scale_one _] at hab
      rcases hab with ⟨rfl, rfl⟩ | ⟨rfl, rfl⟩
      · rw [multiplyContent_of_isFactor mode _ hother hfactor.isFactor (.inr hfactor.group),
          if_neg hkey, pairFactors, Slots.ofList_pair hkey]
        have hpair := formsTerm_collapse one_ne_zero happend
        rw [hslot] at hpair ⊢
        exact hpair
      · rw [multiplyContent_of_isFactor mode _ hfactor.isFactor hother (.inl hfactor.group),
          if_neg hkey.symm, pairFactors, Slots.ofList_pair hkey.symm]
        have hswap : ([slot] ++ keyed [a]).Perm (keyed [a] ++ [slot]) := List.perm_append_comm
        have hpair := formsTerm_collapse one_ne_zero (happend.perm hswap)
        rw [V.readSlots_perm hswap]
        rw [hslot] at hpair ⊢
        exact hpair
  | first :: second :: rest, _ =>
      have hinsert : FormsTerm V (insertFactor mode (fuel + 1)
          (.product 1 1 (first :: second :: rest)) factor)
          ((1 : Rat) • V.readSlots (first :: second :: rest ++ keyed [factor])) := by
        rw [insertFactor_of_group_ne mode fuel 1 _ hfactor.isExpandedSum hfactor.group,
          Slots.find?_eq_none_iff.mpr hfresh]
        exact formsTerm_collapse one_ne_zero happend
      obtain ⟨hleft, hright⟩ := multiplyContent_insert mode (fuel + 1) 1
        (first :: second :: rest) hfactor.isFactor
      rcases hab with ⟨rfl, rfl⟩ | ⟨rfl, rfl⟩
      · exact hleft ▸ hinsert
      · exact hright ▸ hinsert

/-- A factor joins a term without a factor of its key. -/
theorem formsTerm_combineFactors_fresh (mode : Mode) (fuel : Nat) (hc : c ≠ 0)
    (h : IsTermPart V slots) (hfactor : IsLoose V factor)
    (hfresh : ∀ slot ∈ slots, slot.1 ≠ factor.multiplicativeKey) :
    FormsTerm V (combineFactors mode (fuel + 3) (collapse (.product c 1 slots)) factor)
      (c • (V.readSlots slots * V.readSlots (keyed [factor]))) := by
  by_cases hne : slots = []
  · subst hne
    have hlone := formsTerm_collapse hc (h.append hfactor hfresh)
    rw [V.readSlots_append] at hlone
    rw [show collapse (.product c 1 []) = .number c from rfl,
      (combineFactors_number mode _ c factor).2]
    exact hlone
  · obtain ⟨hnumber, hcoeff, hwith⟩ := collapse_parts hc h.part hne
    have hcontent := formsTerm_combineFactors_of_content mode (fuel + 2) hnumber
      hfactor.isNumber fun x y hxy => by
        rw [hwith, withCoeff_of_coeff_eq hfactor.coeff] at hxy
        exact formsTerm_multiplyContent_fresh fuel h hne hfactor hfresh hxy
    rwa [hcoeff, hfactor.coeff, mul_one] at hcontent

/-! ## A slot that is taken -/

theorem formsTerm_combineFactors_union (mode : Mode) (fuel : Nat) (h : IsTermPart V slots)
    (hfresh : ∀ slot ∈ slots, slot.1 ≠ key) (hnode : IsUnion V key total node) :
    FormsTerm V (combineFactors mode (fuel + 3) (collapse (.product 1 1 slots)) node)
      (V.readSlots slots * V.read (.single (.single key total) 1)) := by
  cases hnode with
  | @number c hread =>
      have hscaled := (formsTerm_collapse one_ne_zero h).map_scale c
      rw [one_smul] at hscaled
      rw [hread, mul_comm, ← Algebra.smul_def, (combineFactors_number mode _ c _).1]
      exact hscaled
  | factor hnode hkey hexponent =>
      subst hkey hexponent
      rw [← V.readSlots_keyed_singleton, ← one_smul Rat (_ * _)]
      exact formsTerm_combineFactors_fresh mode fuel one_ne_zero h hnode hfresh

theorem formsTerm_multiplyContent_taken (mode : Mode) (fuel : Nat) (h : IsTermPart V slots)
    (hfactor : IsLoose V factor) (hfind : Slots.find? factor.multiplicativeKey slots = some old)
    (hunites : Unites V mode old factor ∧ Unites V mode factor old)
    (hab : (a = collapse (.product 1 1 slots) ∧ b = factor) ∨
      (a = factor ∧ b = collapse (.product 1 1 slots))) :
    FormsTerm V (multiplyContent mode (fuel + 6) a b)
      (V.readSlots slots * V.readSlots (keyed [factor])) := by
  have hmem := Slots.mem_of_find? hfind
  have hkey : old.multiplicativeKey = factor.multiplicativeKey := (h.part.key _ hmem).symm
  have hslots : V.readSlots slots * V.readSlots (keyed [factor]) =
      V.readSlots (Slots.erase factor.multiplicativeKey slots) * V.read (.single (.single
        factor.multiplicativeKey (old.exponent.linear + factor.exponent.linear)) 1) := by
    have hold : [(factor.multiplicativeKey, old)] = keyed [old] :=
      congrArg (fun key => [(key, old)]) hkey.symm
    rw [V.readSlots_perm (Slots.perm_cons_erase h.part.distinct hmem), ← List.singleton_append,
      V.readSlots_append, mul_comm (V.readSlots [_]), mul_assoc, hold,
      V.readSlots_keyed_singleton, V.readSlots_keyed_singleton, hkey, ← map_mul,
      AddMonoidAlgebra.single_mul_single, ← Finsupp.single_add, one_mul]
  rw [hslots]
  match slots with
  | [slot] =>
      obtain rfl : (factor.multiplicativeKey, old) = slot := List.mem_singleton.mp hmem
      have hother : old.isFactor = true := h.part.factor _ List.mem_cons_self
      have hnil : Slots.erase factor.multiplicativeKey [(factor.multiplicativeKey, old)] = [] := by
        simp [Slots.erase]
      rw [hnil, V.readSlots_nil, one_mul]
      rw [show collapse (.product 1 1 [(factor.multiplicativeKey, old)]) = old
        from scale_one _] at hab
      rcases hab with ⟨rfl, rfl⟩ | ⟨rfl, rfl⟩
      · rw [multiplyContent_of_isFactor mode _ hother hfactor.isFactor (.inr hfactor.group),
          if_pos hkey]
        obtain ⟨node, hok, hnode⟩ := hunites.1 (fuel + 1)
        rw [hok]
        exact hnode.formsTerm
      · rw [multiplyContent_of_isFactor mode _ hfactor.isFactor hother (.inl hfactor.group),
          if_pos hkey.symm]
        obtain ⟨node, hok, hnode⟩ := hunites.2 (fuel + 1)
        rw [hok, add_comm b.exponent.linear, ← hkey]
        exact hnode.formsTerm
  | first :: second :: rest =>
      have hinsert : FormsTerm V (insertFactor mode (fuel + 5)
          (.product 1 1 (first :: second :: rest)) factor)
          (V.readSlots (Slots.erase factor.multiplicativeKey (first :: second :: rest)) *
            V.read (.single (.single factor.multiplicativeKey
              (old.exponent.linear + factor.exponent.linear)) 1)) := by
        obtain ⟨node, hok, hnode⟩ := hunites.1 fuel
        rw [insertFactor_of_group_ne mode _ 1 _ hfactor.isExpandedSum hfactor.group, hfind]
        simp only [hok, bind, Except.bind]
        exact formsTerm_combineFactors_union mode _ (h.sublist (Slots.erase_sublist _ _))
          (fun slot hslot => (Slots.mem_erase.mp hslot).2) hnode
      obtain ⟨hleft, hright⟩ := multiplyContent_insert mode (fuel + 5) 1
        (first :: second :: rest) hfactor.isFactor
      rcases hab with ⟨rfl, rfl⟩ | ⟨rfl, rfl⟩
      · exact hleft ▸ hinsert
      · exact hright ▸ hinsert

/-! ## Terms and one factor -/

/-- A factor joins all terms, of which the contents are the products of the given slots. -/
def Joins (V : FormalReading A) (mode : Mode) (factor : Expr) : Prop :=
  ∀ (fuel : Nat) (slots : Slots) (a b : Expr), IsTermPart V slots → slots ≠ [] →
    ((a = collapse (.product 1 1 slots) ∧ b = factor) ∨
      (a = factor ∧ b = collapse (.product 1 1 slots))) →
    FormsTerm V (multiplyContent mode (fuel + 6) a b)
      (V.readSlots slots * V.readSlots (keyed [factor]))

/-- A factor that unites with the factors in its slot joins all terms. -/
theorem joins_of_unites (hfactor : IsLoose V factor)
    (hunites : ∀ old, Canonical V.rules old → old.isFactor = true → old.coeff = 1 →
      old.multiplicativeKey = factor.multiplicativeKey →
      Unites V mode old factor ∧ Unites V mode factor old) : Joins V mode factor := by
  intro fuel slots a b h hne hab
  cases hfind : Slots.find? factor.multiplicativeKey slots with
  | none =>
      exact formsTerm_multiplyContent_fresh (fuel + 4) h hne hfactor
        (Slots.find?_eq_none_iff.mp hfind) hab
  | some old =>
      have hmem := Slots.mem_of_find? hfind
      exact formsTerm_multiplyContent_taken mode fuel h hfactor hfind
        (hunites old (h.canonical _ hmem) (h.part.factor _ hmem) (h.part.coeff _ hmem)
          (h.part.key _ hmem).symm) hab

/-- A factor that joins the contents of terms joins the terms. -/
theorem Joins.formsTerm (hjoins : Joins V mode factor) (fuel : Nat)
    (hfactor : Canonical V.rules factor) (hfactorial : factor.isFactor = true)
    (hcoeff : factor.coeff = 1) (h : Canonical V.rules term) (hsum : term.isExpandedSum = false) :
    FormsTerm V (combineFactors mode (fuel + 7) term factor)
        (V.read term.formal * V.readSlots (keyed [factor])) ∧
      FormsTerm V (combineFactors mode (fuel + 7) factor term)
        (V.read term.formal * V.readSlots (keyed [factor])) := by
  have hlone := formsTerm_collapse one_ne_zero (.singleton hfactor hfactorial hcoeff)
  rw [collapse_keyed, one_smul] at hlone
  cases hnumber : term.isNumber with
  | true =>
      obtain ⟨c, rfl⟩ := exists_eq_number hnumber
      obtain ⟨hleft, hright⟩ := combineFactors_number mode (fuel + 6) c factor
      have hvalue : V.read (Expr.number c).formal = algebraMap Rat A c :=
        V.valuation.value_number c
      rw [hleft, hright, hvalue, ← Algebra.smul_def]
      exact ⟨hlone.map_scale c, hlone.map_scale c⟩
  | false =>
      obtain ⟨c, slots, hc, hslots, rfl⟩ := exists_collapse_eq h hsum (isZero_of_isNumber hnumber)
      have hne : slots ≠ [] := by
        rintro rfl
        cases hnumber
      obtain ⟨-, htermcoeff, hwith⟩ := collapse_parts hc hslots.part hne
      obtain ⟨node, hok, -, -, hvalue⟩ := formsTerm_collapse hc hslots
      obtain rfl := Except.ok.inj hok
      have hone := withCoeff_of_coeff_eq hcoeff
      have hfactornumber := (isFactor_iff.mp hfactorial).1
      rw [hvalue, smul_mul_assoc]
      constructor
      · have hproduct := formsTerm_combineFactors_of_content mode (fuel + 6) hnumber
          hfactornumber fun x y hxy =>
            hjoins fuel slots x y hslots hne (by rwa [hwith, hone] at hxy)
        rwa [htermcoeff, hcoeff, mul_one] at hproduct
      · have hproduct := formsTerm_combineFactors_of_content mode (fuel + 6) hfactornumber
          hnumber fun x y hxy =>
            hjoins fuel slots x y hslots hne (Or.symm (by rwa [hwith, hone] at hxy))
        rwa [htermcoeff, hcoeff, one_mul] at hproduct

end Reduce

end ExactAlgebra
