import ExactAlgebra.Expr.Identity
import ExactAlgebra.Proofs.Canonical.Signature
import ExactAlgebra.Proofs.Expr.Rearranged

/-!
# Digests of products and sums

The children of a sum or product can come in any order at every depth: in arguments, bases and
exponents as well.  The name of a product or of a sum of dissimilar terms is a digest of its
content and does not depend on that order, nor on the order in which sets are listed.
-/

namespace ExactAlgebra

namespace Expr

/-! ## Contents in the order of the children -/

mutual

/-- The content, in which each set lists its members in the order of the children. -/
def listing : Expr → Key
  | number _ => constantMark
  | radical _ base power =>
      .tuple [.group .radical, .rational base, .rational power]
  | symbol _ name power =>
      .tuple [.group .symbol, .name name, .rational power]
  | exponential _ base exponent =>
      .tuple [.group .exponential, .cons (.rational base.coeff) base.listing,
        .cons (.rational exponent.coeff) exponent.listing]
  | call _ name args power =>
      .tuple [.group .call, .name name, .tuple (argsListings args), .rational power]
  | polynomial _ power terms =>
      .tuple [.group .polynomial, .set (.tuple (slotsListings terms)), .rational power]
  | product _ power factors =>
      .tuple [.group .product, .set (.tuple (slotsListings factors)), .rational power]
  | composite _ power terms =>
      .tuple [.group .composite, .set (.tuple (slotsListings terms)), .rational power]

def argsListings : List Expr → List Key
  | [] => []
  | arg :: args => .cons (.rational arg.coeff) arg.listing :: argsListings args

def slotsListings : List (Key × Expr) → List Key
  | [] => []
  | (_, child) :: rest => .cons (.rational child.coeff) child.listing :: slotsListings rest

end

theorem rearranged_args {args : List Expr}
    (h : ∀ arg ∈ args, arg.listing.Rearranged arg.content) :
    (Key.tuple (argsListings args)).Rearranged (.tuple (argsSignatures args)) := by
  induction args with
  | nil => exact .refl _
  | cons arg args ih =>
      rw [List.forall_mem_cons] at h
      exact .cons (.cons (.refl _) h.1) (ih h.2)

theorem rearranged_slots {slots : Slots}
    (h : ∀ slot ∈ slots, slot.2.listing.Rearranged slot.2.content) :
    (Key.tuple (slotsListings slots)).Rearranged (.tuple (slotsSignatures slots)) := by
  induction slots with
  | nil => exact .refl _
  | cons slot slots ih =>
      rw [List.forall_mem_cons] at h
      exact .cons (.cons (.refl _) h.1) (ih h.2)

/-- No child is lost when the children become a set. -/
theorem rearranged_children {slots : Slots} (hnodup : slots.signatures.Nodup)
    (h : ∀ slot ∈ slots, slot.2.listing.Rearranged slot.2.content) :
    (Key.set (.tuple (slotsListings slots))).Rearranged (.setOf (slotsSignatures slots)) := by
  rw [← Slots.slotsSignatures_eq] at hnodup
  exact (Key.Rearranged.set (rearranged_slots h)).trans (.setOf hnodup)

/-- The name of a product or of a sum of dissimilar terms. -/
theorem identity_eq {node : Expr} (hgroup : node.group = .product ∨ node.group = .composite) :
    node.identity = Text.Digest.ofText (node.withPower 1).content.text := by
  cases node <;> simp [group] at hgroup <;> rfl

end Expr

namespace Canonical

open ExactAlgebra.Expr

variable {rules : Discipline} {a b node : Expr}

/-- The content of a canonical expression lists its children, and those of all its parts, in an
order of its own. -/
theorem rearranged_listing (h : Canonical rules node) :
    node.listing.Rearranged node.content := by
  induction h with
  | number | radical | symbol => exact .refl _
  | constantBase _ _ _ _ _ _ ih =>
      exact .cons (.refl _) (.cons (.refl _) (.cons (.cons (.refl _) ih) (.refl _)))
  | plainBase _ _ _ _ _ _ ihbase ihexponent =>
      exact .cons (.refl _) (.cons (.cons (.refl _) ihbase)
        (.cons (.cons (.refl _) ihexponent) (.refl _)))
  | call _ _ _ _ ih =>
      exact .cons (.refl _) (.cons (.refl _) (.cons (rearranged_args ih) (.refl _)))
  | polynomial hsum hrules hslots hterms ih =>
      have hnodup := (Canonical.polynomial hsum hrules hslots hterms).nodup_signatures
      exact .cons (.refl _) (.cons (rearranged_children hnodup ih) (.refl _))
  | product hcoeff hslots hfactors ih =>
      have hnodup := (Canonical.product hcoeff hslots hfactors).nodup_signatures
      exact .cons (.refl _) (.cons (rearranged_children hnodup ih) (.refl _))
  | composite hsum hrules hslots hterms ih =>
      have hnodup := (Canonical.composite hsum hrules hslots hterms).nodup_signatures
      exact .cons (.refl _) (.cons (rearranged_children hnodup ih) (.refl _))

/-- The same with exponent one, where a sum that was a factor becomes an expanded sum. -/
theorem rearranged_withPower (h : Canonical rules a)
    (hgroup : a.group = .product ∨ a.group = .composite) :
    (a.withPower 1).listing.Rearranged (a.withPower 1).content := by
  cases h with
  | product hcoeff hslots hfactors =>
      exact (Canonical.product hcoeff hslots hfactors).rearranged_listing
  | composite _ _ hslots hterms =>
      exact (Canonical.expandedComposite hslots hterms).rearranged_listing
  | _ => simp [group] at hgroup

/-- Contents with one set of children at every depth differ at most in the order of listing. -/
theorem rearranged_of_content_eq (ha : Canonical rules a) (hb : Canonical rules b)
    (hagroup : a.group = .product ∨ a.group = .composite)
    (hbgroup : b.group = .product ∨ b.group = .composite)
    (h : (a.withPower 1).content = (b.withPower 1).content) :
    (a.withPower 1).listing.Rearranged (b.withPower 1).listing := by
  have hlisted := ha.rearranged_withPower hagroup
  rw [h] at hlisted
  exact hlisted.trans (hb.rearranged_withPower hbgroup).symm

/-! ## Main result -/

/-- Two products or sums of dissimilar terms with contents that differ at most in the order of
the children at any depth have one name, the digest of one text.  It is the written form of each
content in whatever order its sets are listed. -/
theorem identity_eq_of_rearranged (ha : Canonical rules a) (hb : Canonical rules b)
    (hagroup : a.group = .product ∨ a.group = .composite)
    (hbgroup : b.group = .product ∨ b.group = .composite)
    (h : (a.withPower 1).listing.Rearranged (b.withPower 1).listing) :
    ∃ text,
      (∀ key : Key, key.Rearranged (a.withPower 1).listing → key.text = text) ∧
      (∀ key : Key, key.Rearranged (b.withPower 1).listing → key.text = text) ∧
      a.identity = Text.Digest.ofText text ∧ b.identity = Text.Digest.ofText text := by
  have hatext := (ha.rearranged_withPower hagroup).text_eq
  have hbtext := (hb.rearranged_withPower hbgroup).text_eq
  refine ⟨(a.withPower 1).listing.text, ?_, ?_, ?_, ?_⟩
  · intro key hkey
    exact hkey.text_eq
  · intro key hkey
    rw [hkey.text_eq, h.text_eq]
  · rw [identity_eq hagroup, hatext]
  · rw [identity_eq hbgroup, h.text_eq, hbtext]

theorem canonical_pairTerms_named {m n : String} (h : m ≠ n) :
    Canonical .free (Reduce.pairTerms (.named m) (.named n)) := by
  have hnamed : ∀ name, Canonical .free (Expr.named name) := fun name =>
    .symbol one_ne_zero one_ne_zero trivial
  have hkey : (Expr.named m).additiveKey ≠ (Expr.named n).additiveKey := by
    simpa [named, additiveKey, baseKey, Expr.withPower, content, Key.tuple] using h
  rw [Reduce.pairTerms_of_ne hkey]
  apply Canonical.expandedComposite
  · exact Reduce.isComposite_pair (isFlat_of_not_isExpandedSum rfl)
      (isFlat_of_not_isExpandedSum rfl) hkey (fun _ _ => trivial) rfl rfl
  · simpa using ⟨hnamed m, hnamed n⟩

/-- The sine of a sum times a variable, in the one and the other order at both depths. -/
theorem identity_eq_of_rearranged_sine :
    ∃ a b, a = Reduce.pairFactors
        (.apply "sin" [Reduce.pairTerms (.named "x") (.named "y")]) (.named "z") ∧
      b = Reduce.pairFactors
        (.named "z") (.apply "sin" [Reduce.pairTerms (.named "y") (.named "x")]) ∧
      Canonical .free a ∧ Canonical .free b ∧ a.group = .product ∧ b.group = .product ∧
      (a.withPower 1).listing.Rearranged (b.withPower 1).listing ∧
      ∃ text, (∀ key : Key, key.Rearranged (a.withPower 1).listing → key.text = text) ∧
        (∀ key : Key, key.Rearranged (b.withPower 1).listing → key.text = text) ∧
        a.identity = Text.Digest.ofText text ∧ b.identity = Text.Digest.ofText text := by
  have hsine : ∀ {m n : String}, m ≠ n →
      Canonical .free (.apply "sin" [Reduce.pairTerms (.named m) (.named n)]) := fun hne =>
    .call one_ne_zero one_ne_zero trivial
      (List.forall_mem_singleton.mpr (canonical_pairTerms_named hne))
  have hz : Canonical .free (.named "z") := .symbol one_ne_zero one_ne_zero trivial
  have ha := Reduce.canonical_pairFactors Discipline.free_hereditary
    (hsine (m := "x") (n := "y") (by decide)) hz rfl rfl rfl rfl (by decide)
    (by simp [group, apply])
  have hb := Reduce.canonical_pairFactors Discipline.free_hereditary
    hz (hsine (m := "y") (n := "x") (by decide)) rfl rfl rfl rfl (by decide)
    (by simp [group, named])
  have hlisting := ha.rearranged_of_content_eq hb (.inl rfl) (.inl rfl) (by decide +kernel)
  exact ⟨_, _, rfl, rfl, ha, hb, rfl, rfl, hlisting,
    identity_eq_of_rearranged ha hb (.inl rfl) (.inl rfl) hlisting⟩

end Canonical

end ExactAlgebra
