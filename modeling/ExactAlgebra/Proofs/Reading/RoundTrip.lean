import ExactAlgebra.Proofs.Number.Valuation
import ExactAlgebra.Proofs.Reading.Written

/-!
# Round trips

The infix text of an expression that a text denotes is read as that expression, provided
that the primes in the bases of its radicals are within the limit of factoring.
-/

namespace ExactAlgebra

open ExactAlgebra.Expr Reduce Phrase

variable {read : Reader} {node : Expr}

/-! ## Small radicals -/

/-- The bases of the radicals in an expression. -/
def Expr.radicalBases (node : Expr) : List Rat :=
  node.walk.filterMap fun part =>
    match part with
    | .radical _ base _ => some base
    | _ => none

/-- All primes in the positive bases of radicals are within the limit of factoring. -/
def Expr.HasSmallRadicals (node : Expr) : Prop :=
  ∀ base ∈ node.radicalBases, 0 < base → Factor.Smooth Factor.defaultLimit base.num.natAbs

theorem Expr.HasSmallRadicals.of_subset {part : Expr} (h : node.HasSmallRadicals)
    (hsub : part.walk ⊆ node.walk) : part.HasSmallRadicals :=
  fun base hbase => h base (List.filterMap_subset _ hsub hbase)

theorem Expr.HasSmallRadicals.slots (h : node.HasSmallRadicals) :
    ∀ slot ∈ node.slots, slot.2.HasSmallRadicals := by
  exact fun slot hslot => h.of_subset (walk_subset_of_mem_slots hslot)

/-- A radical of such an expression is small. -/
theorem isSmall_of_radical {coeff base power : Rat} (h : IsRadical base power)
    (hsmall : (Expr.radical coeff base power).HasSmallRadicals) : IsSmall [(base, power)] := by
  intro root hroot
  obtain rfl : root = (base, power) := by simpa using hroot
  refine ⟨h, ?_⟩
  rcases h with ⟨-, htwo, -⟩ | ⟨rfl, -⟩
  · exact hsmall base (by simp [radicalBases, walk]) (by linarith)
  · intro q hq hdvd
    exact absurd (Nat.dvd_one.mp hdvd) hq.ne_one

/-! ## What is written -/

/-- The terms of the written form show terms of an expression, and those of a factor are a
scaled phrase. -/
structure IsWritten (read : Reader) (node : Expr) : Prop where
  factor : node.isFactor = true → ∃ e degree,
    Spells read false 4 e (node.withCoeff 1) ∧
    (Style.isBare (node.withCoeff 1) = true → Spells read false 5 e (node.withCoeff 1)) ∧
    written node = [⟨false, degree, scaledText node.coeff e.text⟩]
  terms : ∃ nodes, List.Forall₂ (Shows read) ((written node).map Style.Term.text) nodes ∧
    (∀ part ∈ nodes, Canonical .readable part) ∧ nodes ≠ [] ∧
    (nodes.map linear).sum = node.linear

theorem join_singleton (term : Style.Term) : Style.join [term] = term.text := by
  simp [Style.join, Style.joinTerm]

theorem scaledText_one (body : String) : scaledText 1 body = body := rfl

/-- A factor with coefficient one is spelled by its infix text. -/
theorem IsWritten.exists_spells_factor (h : IsWritten read node) (hfactor : node.isFactor = true)
    (hcoeff : node.coeff = 1) : ∃ e, Spells read false 4 e node ∧ e.text = node.toText ∧
      (Style.isBare node = true → Spells read false 5 e node) := by
  obtain ⟨e, degree, hspells, hbare, htext⟩ := h.factor hfactor
  rw [withCoeff_of_coeff_eq hcoeff] at hspells hbare
  refine ⟨e, hspells, ?_, hbare⟩
  rw [toText_eq, htext, join_singleton, hcoeff, scaledText_one]

/-- An expression is spelled by its infix text. -/
theorem IsWritten.exists_spells (h : IsWritten read node) (hnode : Canonical .readable node) :
    ∃ e, Spells read true 1 e node ∧ e.text = node.toText ∧
      (Style.isBare node = true → Spells read false 5 e node) := by
  cases hbare : Style.isBare node with
  | true =>
      have hcoeff : node.coeff = 1 := by cases node <;> simp_all [Style.isBare, Expr.coeff]
      have hfactor : node.isFactor = true := by
        cases node <;> simp_all [Style.isBare, isFactor, isNumber, group, isExpandedSum, isSum]
      obtain ⟨e, -, htext, hspells⟩ := h.exists_spells_factor hfactor hcoeff
      exact ⟨e, (hspells hbare).withSign.mono (by omega), htext, fun _ => hspells hbare⟩
  | false =>
      obtain ⟨nodes, hterms, hnodes, hne, hlinear⟩ := h.terms
      obtain ⟨e, hspells, htext⟩ := exists_spells_join hnode hterms hnodes hne hlinear
      exact ⟨e, hspells, htext, by simp⟩

/-- Spelled expressions one after the other. -/
theorem exists_denotes_list {signed : Bool} {level : Int} {α : Type} {entries : List α}
    (expression : α → Expr) (text : α → String)
    (h : ∀ entry ∈ entries, ∃ e, Spells read signed level e (expression entry) ∧
      e.text = text entry) :
    ∃ phrases values, List.Forall₂ (Denotes read signed level) phrases values ∧
      List.Forall₂ (fun value entry => value.signature = (expression entry).signature)
        values entries ∧
      phrases.map Phrase.text = entries.map text := by
  induction entries with
  | nil => exact ⟨[], [], .nil, .nil, rfl⟩
  | cons entry rest ih =>
      obtain ⟨hentry, hrest⟩ := List.forall_mem_cons.mp h
      obtain ⟨e, ⟨value, hdenotes, hsame⟩, htext⟩ := hentry
      obtain ⟨phrases, values, hphrases, hvalues, htexts⟩ := ih hrest
      exact ⟨e :: phrases, value :: values, .cons hdenotes hphrases, .cons hsame hvalues, by
        rw [List.map_cons, List.map_cons, htext, htexts]⟩

/-! ## Factors -/

theorem radicals_of_signature {a b : Expr} (h : a.signature = b.signature) (key key' : Key) :
    Slots.radicals [(key, a)] = Slots.radicals [(key', b)] := by
  by_cases hgroup : a.group = .radical
  · have hleaf : a.isLeaf = true := by cases a <;> simp_all [group, isLeaf]
    rw [eq_of_isLeaf hleaf h]
    rfl
  · rw [Slots.radicals_of_ne hgroup, Slots.radicals_of_ne]
    rwa [← group_eq_of_content (content_eq_of_signature h)]

/-- Factors have the identities of those of a product. -/
def Matches (values : List Expr) (slots : Slots) : Prop :=
  List.Forall₂ (fun value slot => value.signature = slot.2.signature) values slots

theorem Matches.signatures {values : List Expr} {slots : Slots} (h : Matches values slots) :
    Slots.signatures (keyed values) = slots.signatures := by
  induction h with
  | nil => rfl
  | cons hsame _ ih => exact List.cons_eq_cons.mpr ⟨hsame, ih⟩

theorem Matches.radicals {values : List Expr} {slots : Slots} (h : Matches values slots) :
    Slots.radicals (keyed values) = Slots.radicals slots := by
  induction h with
  | nil => rfl
  | @cons value slot values slots hsame _ ih =>
      have hsplit : ∀ (first : Key × Expr) (rest : Slots),
          Slots.radicals (first :: rest) = Slots.radicals [first] ++ Slots.radicals rest :=
        fun first rest => Slots.radicals_append [first] rest
      have hkeyed : keyed (value :: values) =
          (value.multiplicativeKey, value) :: keyed values := rfl
      rw [hkeyed, hsplit, hsplit slot, ih, radicals_of_signature hsame]

theorem Matches.radicalsFirst {values : List Expr} {slots : Slots} (h : Matches values slots)
    (horder : slots.Pairwise fun a b => b.2.group = .radical → a.2.group = .radical) :
    RadicalsFirst values := by
  have hgroups : values.map group = slots.map fun slot => slot.2.group := by
    induction h with
    | nil => rfl
    | cons hsame _ ih =>
        exact List.cons_eq_cons.mpr
          ⟨group_eq_of_content (content_eq_of_signature hsame), ih (List.pairwise_cons.mp horder).2⟩
  have hpairwise : (values.map group).Pairwise fun a b => b = .radical → a = .radical := by
    rw [hgroups]
    exact List.pairwise_map.mpr horder
  exact List.pairwise_map.mp hpairwise

/-- Factors with the identities of those of a product with small radicals can be multiplied. -/
theorem Matches.isProductPart {values : List Expr} {slots : Slots} (h : Matches values slots)
    (hpart : IsProductPart .readable slots) (hsmall : IsSmall (Slots.radicals slots)) :
    IsProductPart .separate (keyed values) := by
  have hfactors : (keyed values).map Prod.fst = slots.map Prod.fst ∧
      ∀ value ∈ values, value.coeff = 1 ∧ value.isFactor = true := by
    have hkeys := hpart.key
    have hcoeffs := hpart.coeff
    have hkinds := hpart.factor
    clear hpart hsmall
    induction h with
    | nil => exact ⟨rfl, by simp⟩
    | @cons value slot values slots hsame _ ih =>
        rw [List.forall_mem_cons] at hkeys hcoeffs hkinds
        obtain ⟨hrest, hvalues⟩ := ih hkeys.2 hcoeffs.2 hkinds.2
        have hcontent := content_eq_of_signature hsame
        obtain ⟨hnumber, hgroup, hsum⟩ := isFactor_iff.mp hkinds.1
        rw [← isNumber_eq_of_content hcontent] at hnumber
        refine ⟨List.cons_eq_cons.mpr ⟨?_, hrest⟩, List.forall_mem_cons.mpr ⟨⟨?_, ?_⟩, hvalues⟩⟩
        · rw [hkeys.1]
          exact multiplicativeKey_eq_of_content hnumber hcontent
        · rw [coeff_eq_of_signature hsame, hcoeffs.1]
        · rw [isFactor_iff, isExpandedSum_eq_of_content hcontent, group_eq_of_content hcontent]
          exact ⟨hnumber, hgroup, hsum⟩
  constructor
  · rw [Slots.Distinct, hfactors.1]
    exact hpart.distinct
  · exact List.forall_mem_map.mpr fun value _ => rfl
  · exact List.forall_mem_map.mpr fun value hvalue => (hfactors.2 value hvalue).1
  · exact List.forall_mem_map.mpr fun value hvalue => (hfactors.2 value hvalue).2
  · rw [h.radicals]
    exact ⟨hpart.radicals, hsmall⟩

theorem isSmall_of_factor (hnode : Canonical .readable node) (hsmall : node.HasSmallRadicals)
    (key : Key) : IsSmall (Slots.radicals [(key, node)]) := by
  by_cases hgroup : node.group = .radical
  · cases hnode <;> simp only [group, reduceCtorEq] at hgroup
    case radical hradical _ => exact isSmall_of_radical hradical hsmall
  · rw [Slots.radicals_of_ne hgroup]
    simp [IsSmall]

theorem isSmall_of_factors {slots : Slots}
    (hslots : ∀ slot ∈ slots, Canonical .readable slot.2 ∧ slot.2.HasSmallRadicals) :
    IsSmall (Slots.radicals slots) := by
  induction slots with
  | nil => simp [IsSmall, Slots.radicals, splitRadicals]
  | cons slot rest ih =>
      obtain ⟨⟨hcanonical, hsmall⟩, hrest⟩ := List.forall_mem_cons.mp hslots
      have hsplit : Slots.radicals (slot :: rest) = Slots.radicals [slot] ++ Slots.radicals rest :=
        Slots.radicals_append [slot] rest
      rw [hsplit]
      exact List.forall_mem_append.mpr ⟨isSmall_of_factor hcanonical hsmall slot.1, ih hrest⟩

/-- A factor with a coefficient. -/
theorem isWritten_of_factor {degree : Rat} {e : Phrase} (hnode : Canonical .readable node)
    (hsmall : node.HasSmallRadicals) (hfactor : node.isFactor = true)
    (hspells : Spells read false 4 e (node.withCoeff 1))
    (hbare : Style.isBare (node.withCoeff 1) = true → Spells read false 5 e (node.withCoeff 1))
    (htext : written node = [⟨false, degree, scaledText node.coeff e.text⟩]) :
    IsWritten read node where
  factor _ := ⟨e, degree, hspells, hbare, htext⟩
  terms := by
    refine ⟨[node], ?_, by simpa using hnode, by simp, by simp⟩
    obtain ⟨hnumber, -, hsum⟩ := isFactor_iff.mp hfactor
    obtain ⟨value, hdenotes, hsame⟩ := hspells
    have hcoeff := hnode.coeff_ne_zero hnumber
    have hmatches : Matches [value] (keyed [node.withCoeff 1]) := .cons hsame .nil
    have hsingle : IsProductPart .readable (keyed [node.withCoeff 1]) := by
      constructor <;> simp [keyed, hfactor]
      exact radicals_of_canonical Discipline.readable_admissible.toHereditary hnode.withCoeff_one _
    have hsmall' : IsSmall (Slots.radicals (keyed [node.withCoeff 1])) := by
      have hsame : Slots.radicals (keyed [node.withCoeff 1]) =
          Slots.radicals [((node.withCoeff 1).multiplicativeKey, node)] := by
        cases node <;> rfl
      rw [hsame]
      exact isSmall_of_factor hnode hsmall _
    have hpart := hmatches.isProductPart hsingle hsmall'
    have hshows := shows_product hcoeff (by simp) (.cons hdenotes .nil) hpart
      (by simp [RadicalsFirst])
    rw [List.map_singleton, String.intercalate_singleton] at hshows
    have hvalue : collapse (.product node.coeff 1 (keyed [value])) = value.withCoeff node.coeff :=
      scale_factor hcoeff (hpart.coeff (value.multiplicativeKey, value) (by simp [keyed]))
        (hpart.factor (value.multiplicativeKey, value) (by simp [keyed]))
    have hcontent : value.content = node.content := by simpa using content_eq_of_signature hsame
    rw [hvalue] at hshows
    rw [htext]
    refine .cons (hshows.congr ?_ ?_) .nil
    · rwa [isExpandedSum_withCoeff, isExpandedSum_eq_of_content hcontent]
    · rw [signature, signature, coeff_withCoeff, content_withCoeff, hcontent]

/-! ## Products -/

theorem factorLe_trans (a b c : Bool × String) (h : Style.factorLe a b = true)
    (h' : Style.factorLe b c = true) : Style.factorLe a c = true := by
  obtain ⟨first, text⟩ := a
  obtain ⟨second, text'⟩ := b
  obtain ⟨third, text''⟩ := c
  cases first <;> cases second <;> cases third <;>
    simp_all [Style.factorLe] <;> exact h.trans h'

theorem factorLe_total (a b : Bool × String) :
    (Style.factorLe a b || Style.factorLe b a) = true := by
  obtain ⟨first, text⟩ := a
  obtain ⟨second, text'⟩ := b
  cases first <;> cases second <;> simp [Style.factorLe, le_total]

/-- The mark and the text of a factor. -/
def factorText (slot : Key × Expr) : Bool × String :=
  (slot.2.group != .radical, slot.2.toText)

/-- The factors of a product as they are written. -/
def sortedFactors (slots : Slots) : Slots :=
  slots.mergeSort fun a b => Style.factorLe (factorText a) (factorText b)

theorem sortedFactors_perm (slots : Slots) : (sortedFactors slots).Perm slots :=
  List.mergeSort_perm _ _

theorem map_sortedFactors (slots : Slots) :
    (sortedFactors slots).map factorText = (slots.map factorText).mergeSort Style.factorLe :=
  List.map_mergeSort fun _ _ _ _ => rfl

theorem radicalsFirst_sortedFactors (slots : Slots) :
    (sortedFactors slots).Pairwise fun a b => b.2.group = .radical → a.2.group = .radical := by
  have hsorted : (sortedFactors slots).Pairwise fun a b =>
      Style.factorLe (factorText a) (factorText b) = true :=
    List.pairwise_mergeSort
      (fun a b c => factorLe_trans (factorText a) (factorText b) (factorText c))
      (fun a b => factorLe_total (factorText a) (factorText b)) slots
  refine hsorted.imp fun {a b} hle hradical => ?_
  by_contra hother
  simp [Style.factorLe, factorText, hradical, hother] at hle

theorem isWritten_product {coeff : Rat} {slots : Slots} (hcoeff : coeff ≠ 0)
    (hslots : IsProduct .readable slots) (hfactors : ∀ slot ∈ slots, Canonical .readable slot.2)
    (hsmall : (Expr.product coeff 1 slots).HasSmallRadicals)
    (hwritten : ∀ slot ∈ slots, IsWritten read slot.2) :
    IsWritten read (.product coeff 1 slots) where
  factor h := by simp [isFactor, group] at h
  terms := by
    have hperm := sortedFactors_perm slots
    refine ⟨[.product coeff 1 slots], ?_, ?_, by simp, by simp⟩
    · obtain ⟨phrases, values, hphrases, hvalues, htexts⟩ :=
        exists_denotes_list Prod.snd (fun slot => slot.2.toText) fun slot hslot => by
          obtain ⟨e, hspells, htext, -⟩ := (hwritten slot (hperm.subset hslot)).exists_spells_factor
            (hslots.factor slot (hperm.subset hslot)) (hslots.coeff slot (hperm.subset hslot))
          exact ⟨e, hspells, htext⟩
      have hmatches : Matches values (sortedFactors slots) := hvalues
      have hradicals := radicals_perm hperm
      have hpart : IsProductPart .readable (sortedFactors slots) :=
        perm_part hslots.part (hslots.radicals.perm hradicals.symm) hperm.symm
      have hsmall' : IsSmall (Slots.radicals (sortedFactors slots)) := fun root hroot =>
        isSmall_of_factors (fun slot hslot => ⟨hfactors slot hslot, hsmall.slots slot hslot⟩)
          root (hradicals.subset hroot)
      have hlength : values.length = slots.length := hvalues.length_eq.trans hperm.length_eq
      have hne : phrases ≠ [] := by
        rintro rfl
        have hzero : 0 = values.length := hphrases.length_eq
        have := hslots.two_le
        omega
      have hshows := shows_product hcoeff hne hphrases (hmatches.isProductPart hpart hsmall')
        (hmatches.radicalsFirst (radicalsFirst_sortedFactors slots))
      have htwo : 2 ≤ (keyed values).length := by
        rw [keyed, List.length_map, hlength]
        exact hslots.two_le
      have hsame : (Slots.signatures (keyed values)).Perm slots.signatures := by
        rw [hmatches.signatures]
        exact hperm.map _
      rw [collapse_two_le htwo, htexts] at hshows
      have htext : (((slots.map factorText).mergeSort Style.factorLe).map Prod.snd) =
          (sortedFactors slots).map fun slot => slot.2.toText := by
        rw [← map_sortedFactors, List.map_map]
        rfl
      rw [← htext] at hshows
      rw [written_product]
      exact .cons (hshows.congr rfl (signature_product hsame)) .nil
    · simpa using Canonical.product hcoeff hslots hfactors

/-! ## Sums -/

/-- The terms of the children of a sum. -/
theorem exists_shows_slots {slots : Slots} (h : ∀ slot ∈ slots, IsWritten read slot.2) :
    ∃ nodes, List.Forall₂ (Shows read)
        ((slots.flatMap fun slot => written slot.2).map Style.Term.text) nodes ∧
      (∀ part ∈ nodes, Canonical .readable part) ∧ (slots ≠ [] → nodes ≠ []) ∧
      (nodes.map linear).sum = slots.linear := by
  induction slots with
  | nil => exact ⟨[], .nil, by simp, by simp, by simp⟩
  | cons slot rest ih =>
      obtain ⟨hslot, hrest⟩ := List.forall_mem_cons.mp h
      obtain ⟨first, hfirst, hcanonical, hne, hlinear⟩ := hslot.terms
      obtain ⟨others, hothers, hcanonical', -, hlinear'⟩ := ih hrest
      refine ⟨first ++ others, ?_, List.forall_mem_append.mpr ⟨hcanonical, hcanonical'⟩,
        fun _ => by simp [hne], ?_⟩
      · rw [List.flatMap_cons, List.map_append]
        exact List.rel_append hfirst hothers
      · rw [List.map_append, List.sum_append, hlinear, hlinear', Slots.linear_cons]

/-- A sum with exponent one, from its children. -/
theorem isWritten_sum (hnode : Canonical .readable node) (hsum : node.isExpandedSum = true)
    (hwritten : ∀ slot ∈ node.slots, IsWritten read slot.2)
    (htext : written node = node.slots.flatMap fun slot => written slot.2) :
    IsWritten read node where
  factor h := by rw [(isFactor_iff.mp h).2.2] at hsum; cases hsum
  terms := by
    obtain ⟨nodes, hshows, hcanonical, hne, hlinear⟩ := exists_shows_slots hwritten
    rw [htext, linear_of_isExpandedSum hsum]
    refine ⟨nodes, hshows, hcanonical, hne ?_, hlinear⟩
    intro hempty
    have htwo := hnode.two_le_slots hsum
    simp [hempty] at htwo

/-! ## Atoms -/

/-- A spelled base with a rational exponent and a coefficient. -/
theorem isWritten_power {base : Expr} {power : Rat} {e : Phrase} (simple : Bool)
    (hnode : Canonical .readable node) (hsmall : node.HasSmallRadicals)
    (hfactor : node.isFactor = true) (hspells : Spells read true 1 e base)
    (hsimple : simple = true → Spells read false 5 e base)
    (hone : power = 1 → base.signature = (node.withCoeff 1).signature)
    (hraises : power ≠ 1 → RaisesTo base (.number power) (node.withCoeff 1))
    (hbare : Style.isBare (node.withCoeff 1) = true → power = 1)
    (htext : written node =
      [⟨false, power, scaledText node.coeff (raisedText e.text power simple)⟩]) :
    IsWritten read node := by
  obtain ⟨e', hspells', htext'⟩ := exists_spells_raised hspells hsimple hone hraises
  rw [← htext'] at htext
  refine isWritten_of_factor hnode hsmall hfactor (hspells'.mono ?_) (fun h => ?_) htext
  · split_ifs <;> omega
  · rwa [if_pos (hbare h)] at hspells'

theorem isWritten_radical {coeff base power : Rat}
    (hnode : Canonical .readable (.radical coeff base power))
    (hsmall : (Expr.radical coeff base power).HasSmallRadicals) :
    IsWritten read (.radical coeff base power) := by
  have hspells : Spells read true 1 (rational base) (.number base) :=
    ⟨_, (denotes_rational base).withSign.mono (by omega), rfl⟩
  cases hnode with
  | radical hcoeff hradical hseparate =>
      refine isWritten_power (decide (0 < base)) (.radical hcoeff hradical hseparate) hsmall rfl
        hspells (fun hpos => ?_) (fun hone => ?_)
        (fun _ => raisesTo_of_isRadical hseparate (isSmall_of_radical hradical hsmall))
        (by simp [Style.isBare, withCoeff]) ?_
      · rcases hradical with ⟨hden, htwo, -⟩ | ⟨rfl, -⟩
        · exact ⟨_, denotes_natural hden (by linarith), rfl⟩
        · exact absurd hpos (by decide)
      · subst hone
        exact absurd (not_isInteger_of_isRadical hradical) (by decide)
      · rw [written_radical, text_rational]
        rfl

theorem isWritten_symbol {coeff power : Rat} {name : String}
    (hnode : Canonical .readable (.symbol coeff name power))
    (hsmall : (Expr.symbol coeff name power).HasSmallRadicals) :
    IsWritten read (.symbol coeff name power) := by
  cases hnode with
  | symbol hcoeff hpower hrules =>
      obtain ⟨hname, hfree, himaginary⟩ := hrules
      have hspells : ∀ {signed level}, Spells read signed level (.name name) (.named name) :=
        ⟨_, ⟨.name hname hfree, rfl⟩, rfl⟩
      refine isWritten_power true (.symbol hcoeff hpower ⟨hname, hfree, himaginary⟩)
        hsmall rfl hspells (fun _ => hspells) (fun hone => by rw [hone]; rfl)
        (fun _ => raisesTo_of_isPlain rfl ?_) (fun hbare => ?_) ?_
      · refine ⟨hpower, fun hnamed => himaginary ?_, fun h => by cases h⟩
        simpa [isNamed, named] using hnamed
      · simpa [Style.isBare, withCoeff] using hbare
      · rw [written_symbol, text_name]
        rfl

theorem signature_apply {name : String} {args args' : List Expr}
    (h : args.map signature = args'.map signature) :
    (Expr.apply name args).signature = (Expr.apply name args').signature := by
  rw [Expr.apply, Expr.apply, signature, signature, content, content, argsSignatures_eq,
    argsSignatures_eq, h]
  rfl

theorem isWritten_call {coeff power : Rat} {name : String} {args : List Expr}
    (hnode : Canonical .readable (.call coeff name args power))
    (hsmall : (Expr.call coeff name args power).HasSmallRadicals)
    (hargs : ∀ arg ∈ args, IsWritten read arg) : IsWritten read (.call coeff name args power) := by
  cases hnode with
  | call hcoeff hpower hrules hcanonical =>
      obtain ⟨phrases, values, hphrases, hvalues, htexts⟩ :=
        exists_denotes_list id toText fun arg harg =>
          let ⟨e, hspells, htext, _⟩ := (hargs arg harg).exists_spells (hcanonical arg harg)
          ⟨e, hspells, htext⟩
      have hsame : args.map signature = values.map signature :=
        (map_signature_eq_iff.mpr hvalues).symm
      obtain ⟨hfunction, hcount, hne⟩ := IsUnevaluated.accepted hrules
      have hlength : phrases.length = args.length := by simpa using congrArg List.length htexts
      have hspells : ∀ {signed level},
          Spells read signed level (.call name phrases) (.apply name args) := by
        refine ⟨.apply name values, .call hfunction (hlength ▸ hcount) ?_ hphrases
          (callWith_of_isUnevaluated hrules hsame), signature_apply hsame.symm⟩
        rintro rfl
        exact hne (List.length_eq_zero_iff.mp hlength.symm)
      refine isWritten_power true (.call hcoeff hpower hrules hcanonical)
        hsmall rfl hspells (fun _ => hspells) (fun hone => by rw [hone]; rfl)
        (fun _ => raisesTo_of_isPlain rfl ⟨hpower, nofun, nofun⟩)
        (fun hbare => ?_) ?_
      · simpa [Style.isBare, withCoeff] using hbare
      · rw [written_call, text_call, htexts]
        rfl

theorem isBare_withPower (h : node.isSum = true) (power : Rat) :
    Style.isBare (node.withPower power) = false := by
  cases node <;> simp_all [isSum, withPower, Style.isBare]

theorem IsSum.power_of_ne {coeff power : Rat} (h : IsSum coeff power) (hpower : power ≠ 1) :
    power < 0 ∨ (0 < power ∧ power < 1) := by
  rcases h with ⟨-, h⟩ | ⟨-, h⟩
  · exact absurd h hpower
  · exact h

/-- A sum with another exponent than one, from the sum with exponent one. -/
theorem isWritten_raisedSum {base : Expr} {power : Rat} (hnode : Canonical .readable node)
    (hsmall : node.HasSmallRadicals) (hfactor : node.isFactor = true)
    (hsum : base.isExpandedSum = true) (hbase : Canonical .readable base)
    (hwritten : IsWritten read base) (hpower : power < 0 ∨ (0 < power ∧ power < 1))
    (hresult : base.withPower power = node.withCoeff 1)
    (htext : written node =
      [⟨false, power, scaledText node.coeff (raisedText base.toText power false)⟩]) :
    IsWritten read node := by
  obtain ⟨e, hspells, hbaseText, -⟩ := hwritten.exists_spells hbase
  obtain ⟨hsumgroup, hdegree⟩ := isExpandedSum_iff.mp hsum
  have hplain : base.isPlain = true :=
    isPlain_iff.mpr ⟨.inr (.inr hsumgroup), hbase.coeff_of_isExpandedSum hsum, hdegree⟩
  have hne : power ≠ 1 := by
    rintro rfl
    rcases hpower with h | h <;> linarith
  rw [← hbaseText] at htext
  refine isWritten_power false hnode hsmall hfactor hspells (by simp) (fun h => absurd h hne)
    (fun _ => hresult ▸ raisesTo_of_isPlain hplain ⟨?_, fun hnamed => ?_, fun _ => hpower⟩)
    (fun hbare => ?_) htext
  · rcases hpower with h | h
    · exact h.ne
    · exact h.1.ne'
  · cases base <;> simp_all [isNamed, isSum]
  · rw [← hresult, isBare_withPower hsumgroup] at hbare
    cases hbare

/-! ## Exponentials -/

theorem isWritten_exponential {coeff : Rat} {base exponent : Expr} {e : Phrase}
    (hnode : Canonical .readable (.exponential coeff base exponent))
    (hsmall : (Expr.exponential coeff base exponent).HasSmallRadicals)
    (hbase : Spells read true 1 e base) (hbaseText : e.text = base.toText)
    (hsimple : isSimpleBase base = true → Spells read false 5 e base)
    (hexponent : Canonical .readable exponent) (hwritten : IsWritten read exponent)
    (hraises : RaisesTo base exponent (.exponential 1 base exponent)) :
    IsWritten read (.exponential coeff base exponent) := by
  obtain ⟨base', hbase', hbaseText'⟩ := exists_spells_part hbase hsimple
  obtain ⟨x, hspells, hexponentText, hbare⟩ := hwritten.exists_spells hexponent
  obtain ⟨x', hexponent', hexponentText'⟩ := exists_spells_part hspells hbare
  have htext : written (.exponential coeff base exponent) =
      [⟨false, 0, scaledText coeff (Phrase.between raising base' x').text⟩] := by
    rw [written_exponential, text_between, hbaseText', hexponentText', hbaseText, hexponentText]
    rfl
  exact isWritten_of_factor hnode hsmall rfl (hbase'.pow hexponent' hraises)
    (by simp [Style.isBare, withCoeff]) htext

/-- A constant base of an exponential. -/
theorem isWritten_constantBase {coeff base : Rat} {exponent : Expr}
    (hnode : Canonical .readable (.exponential coeff (.number base) exponent))
    (hsmall : (Expr.exponential coeff (.number base) exponent).HasSmallRadicals)
    (hwritten : IsWritten read exponent) :
    IsWritten read (.exponential coeff (.number base) exponent) := by
  have hspells : Spells read true 1 (rational base) (.number base) :=
    ⟨_, (denotes_rational base).withSign.mono (by omega), rfl⟩
  have htext : (rational base).text = (Expr.number base).toText := by
    rw [text_rational, toText_eq, written_number, join_singleton]
  cases hnode with
  | plainBase _ hplain => cases hplain
  | constantBase hcoeff hzero hone hrules hexponent hnumber =>
      obtain ⟨hreduced, hconstant⟩ := hrules base rfl
      refine isWritten_exponential (.constantBase hcoeff hzero hone hrules hexponent hnumber)
        hsmall hspells htext (fun hsimple => ?_) hexponent hwritten
        (raisesTo_constantBase hzero hone hreduced hconstant hnumber hexponent)
      obtain ⟨hpos, hden⟩ := Bool.and_eq_true_iff.mp hsimple
      exact ⟨_, denotes_natural (by simpa [Ratio.isInteger] using hden)
        (of_decide_eq_true hpos).le, rfl⟩

/-- A plain base of an exponential. -/
theorem isWritten_plainBase {coeff : Rat} {base exponent : Expr}
    (hnode : Canonical .readable (.exponential coeff base exponent))
    (hsmall : (Expr.exponential coeff base exponent).HasSmallRadicals)
    (hplain : base.isPlain = true) (hbase : Canonical .readable base)
    (hexponent : Canonical .readable exponent) (hnumber : exponent.isNumber = false)
    (hwritten : IsWritten read base) (hwritten' : IsWritten read exponent) :
    IsWritten read (.exponential coeff base exponent) := by
  obtain ⟨e, hspells, htext, hbare⟩ := hwritten.exists_spells hbase
  refine isWritten_exponential hnode hsmall hspells htext (fun hsimple => hbare ?_) hexponent
    hwritten' (raisesTo_symbolic hplain hnumber)
  cases base <;> simp_all [isPlain, isSimpleBase, isSum, Style.isBare, Expr.coeff,
    Expr.degreePower]

/-! ## All expressions -/

/-- The written form of a readable expression with small radicals shows its terms. -/
theorem isWritten (hnode : Canonical .readable node) (hsmall : node.HasSmallRadicals) :
    IsWritten read node := by
  induction hnode with
  | number value =>
      refine ⟨by simp [isFactor, isNumber], [.number value], ?_, by simpa using .number value,
        by simp, by simp⟩
      rw [written_number]
      exact .cons (shows_rational value) .nil
  | radical hcoeff hradical hrules =>
      exact isWritten_radical (.radical hcoeff hradical hrules) hsmall
  | symbol hcoeff hpower hrules => exact isWritten_symbol (.symbol hcoeff hpower hrules) hsmall
  | constantBase hcoeff hzero hone hrules hexponent hnumber ih =>
      exact isWritten_constantBase (.constantBase hcoeff hzero hone hrules hexponent hnumber) hsmall
        (ih (hsmall.of_subset (by intro part hpart; simp [walk, hpart])))
  | plainBase hcoeff hplain hrules hbase hexponent hnumber ihBase ihExponent =>
      exact isWritten_plainBase (.plainBase hcoeff hplain hrules hbase hexponent hnumber) hsmall
        hplain hbase hexponent hnumber
        (ihBase (hsmall.of_subset (by intro part hpart; simp [walk, hpart])))
        (ihExponent (hsmall.of_subset (by intro part hpart; simp [walk, hpart])))
  | call hcoeff hpower hrules hargs ih =>
      refine isWritten_call (.call hcoeff hpower hrules hargs) hsmall fun arg harg => ih arg harg ?_
      exact hsmall.of_subset (List.Subset.trans (walk_subset_argsWalk harg)
        (List.subset_cons_self _ _))
  | @polynomial coeff power terms hsum hrules hslots hterms ih =>
      have hbase := Canonical.expandedPolynomial hslots hterms
      have hexpanded : IsWritten read (.polynomial 1 1 terms) :=
        isWritten_sum hbase rfl (fun slot hslot => ih slot hslot (hsmall.slots slot hslot))
          (by rw [written_polynomial, if_pos rfl]; rfl)
      by_cases hpower : power = 1
      · subst hpower
        rwa [hsum.coeff_eq_one rfl]
      · refine isWritten_raisedSum (.polynomial hsum hrules hslots hterms) hsmall
          (by simp [isFactor, isNumber, group, isExpandedSum, isSum, Expr.degreePower, hpower])
          rfl hbase hexpanded (hsum.power_of_ne hpower) rfl ?_
        rw [written_polynomial, if_neg hpower, toText_eq, written_polynomial, if_pos rfl]
        rfl
  | product hcoeff hslots hfactors ih =>
      exact isWritten_product hcoeff hslots hfactors hsmall
        fun slot hslot => ih slot hslot (hsmall.slots slot hslot)
  | @composite coeff power terms hsum hrules hslots hterms ih =>
      have hbase := Canonical.expandedComposite hslots hterms
      have hexpanded : IsWritten read (.composite 1 1 terms) :=
        isWritten_sum hbase rfl (fun slot hslot => ih slot hslot (hsmall.slots slot hslot))
          (by rw [written_composite, if_pos rfl]; rfl)
      by_cases hpower : power = 1
      · subst hpower
        rwa [hsum.coeff_eq_one rfl]
      · refine isWritten_raisedSum (.composite hsum hrules hslots hterms) hsmall
          (by simp [isFactor, isNumber, group, isExpandedSum, isSum, Expr.degreePower, hpower])
          rfl hbase hexpanded (hsum.power_of_ne hpower) rfl ?_
        rw [written_composite, if_neg hpower, toText_eq, written_composite, if_pos rfl]
        rfl

/-- The tree of `x^2/2-sqrt(6)*sin(y+1)`. -/
def quadraticPhrase : Phrase :=
  .between subtracting (.between dividing (.between raising (.name "x") (.number 2)) (.number 2))
    (.between multiplying (.call "sqrt" [.number 6])
      (.call "sin" [.between adding (.name "y") (.number 1)]))

theorem formed_quadraticPhrase : Formed .standard true 1 quadraticPhrase := by
  have hx : Formed .standard true 5 (.name "x") := .name (by decide) (by decide)
  have hy : Formed .standard true 1 (.name "y") := .name (by decide) (by decide)
  have htwo {signed level} : Formed .standard signed level (.number 2) := .number 2
  have hone : Formed .standard false 2 (.number 1) := .number 1
  have hsix : Formed .standard true 1 (.number 6) := .number 6
  have hsquare : Formed .standard true 4 (.between raising (.name "x") (.number 2)) :=
    .between (by decide) hx htwo (.inl (by decide)) (show raising.precedence < 5 by decide) le_rfl
  have hhalf : Formed .standard true 2
      (.between dividing (.between raising (.name "x") (.number 2)) (.number 2)) :=
    .between (by decide) hsquare htwo (.inl (by decide)) (show dividing.precedence < 3 by decide)
      le_rfl
  have hsum : Formed .standard true 1 (.between adding (.name "y") (.number 1)) :=
    .between (by decide) hy hone (.inr ⟨rfl, rfl⟩) (by decide) le_rfl
  have hsqrt : Formed .standard false 2 (.call "sqrt" [.number 6]) :=
    .call (by decide) (by decide) (by decide) (by simp)
      (by simpa using hsix)
  have hsin : Formed .standard false 3 (.call "sin" [.between adding (.name "y") (.number 1)]) :=
    .call (by decide) (by decide) (by decide) (by simp)
      (by simpa using hsum)
  exact .between (by decide) hhalf
    (.between (by decide) hsqrt hsin (.inr ⟨rfl, rfl⟩) (by decide) le_rfl)
    (.inl (by decide)) (by decide) le_rfl

end ExactAlgebra
