import ExactAlgebra.Proofs.Expr.Key
import Mathlib.Data.String.Basic

/-!
# Sets in any order

The members of a set have no order of their own, and what lists them may meet them in any.  The
written form of a key does not depend on it: each set is written in the order of the written
forms of its members, and members with one written form look the same in either order.
-/

namespace ExactAlgebra

/-- Sorting by keys that tell all entries apart forgets the order before. -/
theorem mergeSort_eq_of_perm {A L : Type} [LinearOrder L] {key : A → L} {le : A → A → Bool}
    (hkey : Function.Injective key) (hle : ∀ a b, le a b = decide (key a ≤ key b))
    {entries entries' : List A} (h : entries.Perm entries') :
    entries.mergeSort le = entries'.mergeSort le := by
  have htrans : ∀ a b c, le a b = true → le b c = true → le a c = true := fun a b c => by
    simpa [hle] using le_trans
  have htotal : ∀ a b, (le a b || le b a) = true := fun a b => by simpa [hle] using le_total _ _
  have hanti : ∀ a b, le a b = true → le b a = true → a = b := fun a b hab hba =>
    hkey (le_antisymm (by simpa [hle] using hab) (by simpa [hle] using hba))
  exact List.Perm.eq_of_pairwise (fun a b _ _ => hanti a b)
    (List.pairwise_mergeSort htrans htotal entries)
    (List.pairwise_mergeSort htrans htotal entries')
    ((List.mergeSort_perm ..).trans (h.trans (List.mergeSort_perm ..).symm))

namespace Key

/-- Two keys that differ at most in the order of the members of sets, at any depth. -/
inductive Rearranged : Key → Key → Prop
  | refl (key : Key) : Rearranged key key
  | trans {a b c : Key} (h : Rearranged a b) (h' : Rearranged b c) : Rearranged a c
  | cons {head head' tail tail' : Key} (hhead : Rearranged head head')
      (htail : Rearranged tail tail') : Rearranged (.cons head tail) (.cons head' tail')
  | set {members members' : Key} (h : Rearranged members members') :
      Rearranged (.set members) (.set members')
  | perm {members members' : List Key} (h : members.Perm members') :
      Rearranged (.set (tuple members)) (.set (tuple members'))

theorem entries_tuple (keys : List Key) : (tuple keys).entries = keys.map text := by
  induction keys with
  | nil => rfl
  | cons key rest ih => simp [tuple, entries, ih]

namespace Rearranged

variable {a b : Key} {keys : List Key}

theorem symm (h : Rearranged a b) : Rearranged b a := by
  induction h with
  | refl key => exact .refl key
  | trans _ _ ih ih' => exact ih'.trans ih
  | cons _ _ ihhead ihtail => exact .cons ihhead ihtail
  | set _ ih => exact .set ih
  | perm hperm => exact .perm hperm.symm

/-- The induction needs the entries beside the text, since a tuple is written by its entries. -/
theorem written_eq (h : Rearranged a b) : a.text = b.text ∧ a.entries = b.entries := by
  induction h with
  | refl => exact ⟨rfl, rfl⟩
  | trans _ _ ih ih' => exact ⟨ih.1.trans ih'.1, ih.2.trans ih'.2⟩
  | cons _ _ ihhead ihtail => simp [text, entries, ihhead.1, ihtail.2]
  | set _ ih => simp [text, entries, ih.2]
  | @perm members members' hperm =>
      have hsorted : (members.map text).mergeSort = (members'.map text).mergeSort :=
        mergeSort_eq_of_perm Function.injective_id (fun _ _ => rfl) (hperm.map text)
      simp [text, entries, entries_tuple, hsorted]

theorem text_eq (h : Rearranged a b) : a.text = b.text := h.written_eq.1

/-- Members that are listed once each form a set. -/
theorem setOf (h : keys.Nodup) : Rearranged (.set (tuple keys)) (Key.setOf keys) := by
  apply Rearranged.perm
  rw [List.perm_ext_iff_of_nodup h (ascending_ascending keys).nodup]
  exact fun key => mem_ascending.symm

end Rearranged

end Key

end ExactAlgebra
