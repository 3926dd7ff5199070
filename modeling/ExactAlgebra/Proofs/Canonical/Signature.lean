import ExactAlgebra.Proofs.Canonical.Product

/-!
# Children with one identity

No two children of a canonical sum or product have one signature, so expressions
of one content have the same children in some order.
-/

namespace ExactAlgebra

namespace Slots

/-- The signatures of the children. -/
def signatures (slots : Slots) : List Key := slots.map fun slot => slot.2.signature

theorem slotsSignatures_eq (slots : Slots) : Expr.slotsSignatures slots = slots.signatures := by
  induction slots with
  | nil => rfl
  | cons slot rest ih => simp [Expr.slotsSignatures, signatures, ih, Expr.signature]

theorem nodup_signatures {slots : Slots} (hslots : Distinct slots)
    (hkey : ∀ a ∈ slots, ∀ b ∈ slots, a.2.signature = b.2.signature → a.1 = b.1) :
    slots.signatures.Nodup := by
  refine List.Nodup.map_on ?_ hslots.nodup
  intro a ha b hb hsignature
  exact List.inj_on_of_nodup_map hslots ha hb (hkey a ha b hb hsignature)

/-- Values that depend on the signature alone agree on the same children. -/
theorem map_perm {A : Type*} {slots slots' : Slots} {f : Expr → A}
    (h : slots.signatures.Perm slots'.signatures)
    (hf : ∀ a ∈ slots, ∀ b ∈ slots', a.2.signature = b.2.signature → f a.2 = f b.2) :
    (slots.map fun slot => f slot.2).Perm (slots'.map fun slot => f slot.2) := by
  induction slots generalizing slots' with
  | nil =>
      simp only [signatures, List.map_nil] at h
      rw [List.map_eq_nil_iff.mp h.symm.eq_nil]
  | cons slot rest ih =>
      have hmem : slot.2.signature ∈ slots'.signatures := h.subset List.mem_cons_self
      obtain ⟨other, hother, hsignature⟩ := List.mem_map.mp hmem
      obtain ⟨before, after, rfl⟩ := List.append_of_mem hother
      have hmiddle : (before ++ other :: after).Perm (other :: (before ++ after)) :=
        List.perm_middle
      have hrest : Slots.signatures rest |>.Perm (Slots.signatures (before ++ after)) := by
        have hmoved : Slots.signatures (before ++ other :: after) |>.Perm
            (Slots.signatures (other :: (before ++ after))) := hmiddle.map _
        have hcons := h.trans hmoved
        simp only [signatures, List.map_cons, hsignature] at hcons
        exact hcons.cons_inv
      refine List.Perm.trans ?_ (hmiddle.map fun slot => f slot.2).symm
      rw [List.map_cons, List.map_cons, hf slot List.mem_cons_self other hother hsignature.symm]
      refine (ih hrest fun a ha b hb => hf a (List.mem_cons_of_mem _ ha) b ?_).cons _
      rw [List.mem_append] at hb
      rw [List.mem_append, List.mem_cons]
      tauto

end Slots

namespace Expr

variable {a b : Expr}

theorem content_eq_of_signature (h : a.signature = b.signature) : a.content = b.content := by
  simp only [signature, Key.cons.injEq] at h
  exact h.2

theorem coeff_eq_of_signature (h : a.signature = b.signature) : a.coeff = b.coeff := by
  simp only [signature, Key.cons.injEq, Key.rational.injEq] at h
  exact h.1

theorem signatures_perm_of_setOf {slots slots' : Slots} (h : Key.setOf (slotsSignatures slots) =
      Key.setOf (slotsSignatures slots')) (hslots : slots.signatures.Nodup)
    (hslots' : slots'.signatures.Nodup) : slots.signatures.Perm slots'.signatures := by
  rw [Slots.slotsSignatures_eq, Slots.slotsSignatures_eq, Key.setOf_eq_setOf_iff] at h
  exact (List.perm_ext_iff_of_nodup hslots hslots').mpr h

end Expr

namespace Canonical

open ExactAlgebra.Expr

variable {rules : Discipline} {a b node : Expr}

theorem polynomial_of_isFlat (h : Canonical rules node) (hsum : node.isExpandedSum = true)
    (hflat : node.IsFlat) : ∃ terms, node = .polynomial 1 1 terms ∧ IsPolynomial terms ∧
      ∀ slot ∈ terms, Canonical rules slot.2 := by
  cases h <;> simp [isExpandedSum, isSum, degreePower] at hsum
  case polynomial coeff power terms hshape _ hslots hterms =>
    subst hsum
    obtain rfl := hshape.coeff_eq_one rfl
    exact ⟨terms, rfl, hslots, hterms⟩
  case composite =>
    subst hsum
    exact absurd ⟨rfl, rfl⟩ hflat

theorem additiveKey_eq_of_content (ha : Canonical rules a) (hb : Canonical rules b)
    (haflat : a.IsFlat) (hbflat : b.IsFlat) (h : a.content = b.content) :
    a.additiveKey = b.additiveKey := by
  cases hsum : a.isExpandedSum with
  | false => exact Expr.additiveKey_eq_of_content hsum h
  | true =>
      have hbsum : b.isExpandedSum = true := by rwa [← isExpandedSum_eq_of_content h]
      obtain ⟨terms, rfl, hslots, -⟩ := ha.polynomial_of_isFlat hsum haflat
      obtain ⟨terms', rfl, hslots', -⟩ := hb.polynomial_of_isFlat hbsum hbflat
      simp only [content, Key.tuple, Key.cons.injEq, Key.setOf_eq_setOf_iff,
        Slots.slotsSignatures_eq, true_and, and_true] at h
      obtain ⟨slot, hslot⟩ := List.exists_mem_of_length_pos
        (Nat.lt_of_lt_of_le Nat.zero_lt_two hslots.two_le)
      obtain ⟨slot', hslot', hsignature⟩ := List.mem_map.mp
        ((h _).mp (List.mem_map_of_mem (f := fun slot => slot.2.signature) hslot))
      rw [Reduce.additiveKey_polynomial hslots hslot, Reduce.additiveKey_polynomial hslots' hslot']
      exact (Expr.additiveKey_eq_of_content
        (not_isExpandedSum_of_isPowered (hslots'.powered slot' hslot'))
        (content_eq_of_signature hsignature)).symm

theorem nodup_signatures (h : Canonical rules node) : node.slots.signatures.Nodup := by
  cases h with
  | polynomial _ _ hslots _ =>
      refine Slots.nodup_signatures hslots.distinct fun a ha b hb hsignature => ?_
      have hcontent := content_eq_of_signature hsignature
      rw [hslots.key a ha, hslots.key b hb, key_exponent_of_isPowered (hslots.powered a ha),
        key_exponent_of_isPowered (hslots.powered b hb), degreePower_eq_of_content hcontent]
  | product _ hslots _ =>
      refine Slots.nodup_signatures hslots.distinct fun a ha b hb hsignature => ?_
      have hnumber := (isFactor_iff.mp (hslots.factor a ha)).1
      rw [hslots.key a ha, hslots.key b hb,
        multiplicativeKey_eq_of_content hnumber (content_eq_of_signature hsignature)]
  | composite _ _ hslots hterms =>
      refine Slots.nodup_signatures hslots.distinct fun a ha b hb hsignature => ?_
      rw [hslots.key a ha, hslots.key b hb, (hterms a ha).additiveKey_eq_of_content (hterms b hb)
        (hslots.flat a ha) (hslots.flat b hb) (content_eq_of_signature hsignature)]
  | _ => exact List.nodup_nil

/-- Expressions of one content have the same children in some order. -/
theorem signatures_perm (ha : Canonical rules a) (hb : Canonical rules b)
    (h : a.content = b.content) : a.slots.signatures.Perm b.slots.signatures := by
  have hanodup := ha.nodup_signatures
  have hbnodup := hb.nodup_signatures
  have hgroup := group_eq_of_content h
  cases a <;> cases b <;> simp only [group, reduceCtorEq] at hgroup
  case polynomial | product | composite =>
    simp only [content, Key.tuple, Key.cons.injEq] at h
    exact signatures_perm_of_setOf h.2.1 hanodup hbnodup
  all_goals exact .refl _

end Canonical

end ExactAlgebra
