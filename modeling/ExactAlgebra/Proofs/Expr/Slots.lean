import ExactAlgebra.Expr.Basic
import Mathlib

/-!
# Slots

The slots of a sum or product have distinct keys, so a child is found exactly
under its key, and removing a slot leaves all others as they are.
-/

namespace ExactAlgebra.Slots

/-- No two slots have one key. -/
def Distinct (slots : Slots) : Prop := (slots.map Prod.fst).Nodup

variable {key other : Key} {child : Expr} {slots : Slots}

@[simp] theorem distinct_nil : Distinct [] := List.nodup_nil

@[simp] theorem distinct_cons :
    Distinct ((key, child) :: slots) ↔ (∀ slot ∈ slots, slot.1 ≠ key) ∧ Distinct slots := by
  simp only [Distinct, List.map_cons, List.nodup_cons, List.mem_map, not_exists, not_and]

/-! ## Look-up -/

theorem find?_eq_none_iff : find? key slots = none ↔ ∀ slot ∈ slots, slot.1 ≠ key := by
  induction slots with
  | nil => simp [find?]
  | cons slot rest ih =>
      obtain ⟨first, old⟩ := slot
      simp only [find?, List.forall_mem_cons]
      split
      next heq => simp [heq]
      next hne => simp [hne, ih]

theorem mem_of_find? (h : find? key slots = some child) : (key, child) ∈ slots := by
  induction slots with
  | nil => simp [find?] at h
  | cons slot rest ih =>
      obtain ⟨first, old⟩ := slot
      simp only [find?] at h
      split at h
      next heq =>
        simp only [Option.some.injEq] at h
        subst heq h
        exact List.mem_cons_self
      next => exact List.mem_cons_of_mem _ (ih h)

theorem find?_of_mem (hslots : Distinct slots) (h : (key, child) ∈ slots) :
    find? key slots = some child := by
  induction slots with
  | nil => simp at h
  | cons slot rest ih =>
      obtain ⟨first, old⟩ := slot
      obtain ⟨hfresh, hrest⟩ := distinct_cons.mp hslots
      rcases List.mem_cons.mp h with heq | hmem
      · simp only [Prod.mk.injEq] at heq
        simp [find?, heq]
      · have hne : first ≠ key := (hfresh _ hmem).symm
        simp [find?, hne, ih hrest hmem]

/-! ## New slots -/

theorem put_of_fresh (h : ∀ slot ∈ slots, slot.1 ≠ key) :
    put key child slots = slots ++ [(key, child)] := by
  induction slots with
  | nil => rfl
  | cons slot rest ih =>
      obtain ⟨first, old⟩ := slot
      rw [List.forall_mem_cons] at h
      simp [put, h.1, ih h.2]

theorem distinct_append_singleton (hslots : Distinct slots)
    (h : ∀ slot ∈ slots, slot.1 ≠ key) : Distinct (slots ++ [(key, child)]) := by
  simp only [Distinct, List.map_append, List.map_cons, List.map_nil]
  refine List.nodup_append.mpr ⟨hslots, List.nodup_singleton _, ?_⟩
  rintro _ hmem _ hkey
  obtain ⟨slot, hslot, rfl⟩ := List.mem_map.mp hmem
  rw [List.mem_singleton.mp hkey]
  exact h slot hslot

theorem Distinct.perm {slots' : Slots} (hslots : Distinct slots) (h : slots.Perm slots') :
    Distinct slots' :=
  (h.map Prod.fst).nodup_iff.mp hslots

theorem Distinct.sublist {slots' : Slots} (hslots : Distinct slots) (h : slots'.Sublist slots) :
    Distinct slots' :=
  (h.map Prod.fst).nodup hslots

theorem Distinct.nodup (hslots : Distinct slots) : slots.Nodup := List.Nodup.of_map _ hslots

/-- The slots of children with distinct keys are these children. -/
theorem ofList_of_distinct {children : List (Key × Expr)} (h : Distinct children) :
    ofList children = children := by
  suffices ∀ before, Distinct (before ++ children) →
      children.foldl (fun slots child => put child.1 child.2 slots) before =
        before ++ children from this [] h
  clear h
  induction children with
  | nil => simp
  | cons slot rest ih =>
      intro before hbefore
      have hfresh : ∀ old ∈ before, old.1 ≠ slot.1 := by
        intro old hold
        have := hbefore.perm List.perm_middle
        exact (distinct_cons.mp this).1 old (List.mem_append_left _ hold)
      rw [List.foldl_cons, put_of_fresh hfresh, ih, List.append_assoc, List.singleton_append]
      rwa [List.append_assoc, List.singleton_append]

theorem ofList_pair {key' : Key} {child' : Expr} (h : key ≠ key') :
    ofList [(key, child), (key', child')] = [(key, child), (key', child')] :=
  ofList_of_distinct (by simp [Ne.symm h])

/-! ## Removal -/

theorem mem_erase {slot : Key × Expr} : slot ∈ erase key slots ↔ slot ∈ slots ∧ slot.1 ≠ key := by
  simp [erase]

theorem erase_sublist (key : Key) (slots : Slots) : (erase key slots).Sublist slots :=
  List.filter_sublist

/-- A slot and the others. -/
theorem perm_cons_erase (hslots : Distinct slots) (h : (key, child) ∈ slots) :
    slots.Perm ((key, child) :: erase key slots) := by
  induction slots with
  | nil => simp at h
  | cons slot rest ih =>
      obtain ⟨first, old⟩ := slot
      obtain ⟨hfresh, hrest⟩ := distinct_cons.mp hslots
      rcases List.mem_cons.mp h with heq | hmem
      · simp only [Prod.mk.injEq] at heq
        obtain ⟨rfl, rfl⟩ := heq
        have herase : erase key ((key, child) :: rest) = rest := by
          rw [erase, List.filter_cons_of_neg (by simp)]
          exact List.filter_eq_self.mpr fun slot hslot => by simpa using hfresh slot hslot
        rw [herase]
      · have hne : first ≠ key := (hfresh _ hmem).symm
        have hstep : erase key ((first, old) :: rest) = (first, old) :: erase key rest := by
          simp [erase, hne]
        rw [hstep]
        exact ((ih hrest hmem).cons _).trans (List.Perm.swap _ _ _)

theorem length_erase (hslots : Distinct slots) (h : (key, child) ∈ slots) :
    (erase key slots).length + 1 = slots.length :=
  (perm_cons_erase hslots h).length_eq.symm

end ExactAlgebra.Slots
