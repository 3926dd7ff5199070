import ExactAlgebra.Expr.Basic
import Mathlib

/-!
# Keys and sets of keys

`Key.compare` is a linear order, so the ascending list of some keys depends on
its members alone.  Main statement: `setOf_eq_setOf_iff`, two sets of keys are
equal exactly when they have the same members.
-/

namespace ExactAlgebra.Key

/-! ## The order of keys -/

theorem compare_swap (a b : Key) : compare a b = (compare b a).swap := by
  induction a generalizing b with
  | rational x =>
      cases b with
      | rational y => exact compareOfLessAndEq_eq_swap le_antisymm le_total not_le
      | _ => simp only [compare, rank]; rfl
  | name s =>
      cases b with
      | name t => exact compareOfLessAndEq_eq_swap le_antisymm le_total not_le
      | _ => simp only [compare, rank]; rfl
  | group g =>
      cases b with
      | group h =>
          simp only [compare]
          exact Std.OrientedOrd.eq_swap
      | _ => simp only [compare, rank]; rfl
  | nil => cases b <;> simp only [compare, rank] <;> rfl
  | cons head tail ihHead ihTail =>
      cases b with
      | cons head' tail' =>
          simp only [compare, ihHead head', ihTail tail', Ordering.swap_then]
      | _ => simp only [compare, rank]; rfl
  | set members ih =>
      cases b with
      | set members' => simpa only [compare] using ih members'
      | _ => simp only [compare, rank]; rfl

theorem compare_eq_iff {a b : Key} : compare a b = .eq ↔ a = b := by
  constructor
  · intro h
    induction a generalizing b with
    | rational x =>
        cases b with
        | rational y =>
            exact congrArg rational ((compareOfLessAndEq_eq_eq le_refl not_le).mp h)
        | _ => simp [compare, rank] at h
    | name s =>
        cases b with
        | name t => exact congrArg name ((compareOfLessAndEq_eq_eq le_refl not_le).mp h)
        | _ => simp [compare, rank] at h
    | group g =>
        cases b with
        | group h' =>
            simp only [compare] at h
            cases g <;> cases h' <;> first | rfl | simp [Group.rank] at h
        | _ => simp [compare, rank] at h
    | nil => cases b <;> simp [compare, rank] at h ⊢
    | cons head tail ihHead ihTail =>
        cases b with
        | cons head' tail' =>
            simp only [compare, Ordering.then_eq_eq] at h
            rw [ihHead h.1, ihTail h.2]
        | _ => simp [compare, rank] at h
    | set members ih =>
        cases b with
        | set members' => rw [ih (by simpa only [compare] using h)]
        | _ => simp [compare, rank] at h
  · rintro rfl
    have h := compare_swap a a
    cases hc : compare a a with
    | eq => rfl
    | lt => rw [hc] at h; cases h
    | gt => rw [hc] at h; cases h

theorem compare_self (a : Key) : compare a a = .eq := compare_eq_iff.mpr rfl

theorem compare_gt_iff {a b : Key} : compare a b = .gt ↔ compare b a = .lt := by
  rw [compare_swap a b]
  exact Ordering.swap_eq_gt

private theorem compareOfLessAndEq_lt_trans {α : Type} [LinearOrder α] {x y z : α}
    (hxy : compareOfLessAndEq x y = .lt) (hyz : compareOfLessAndEq y z = .lt) :
    compareOfLessAndEq x z = .lt := by
  rw [compareOfLessAndEq_eq_lt] at *
  exact hxy.trans hyz

theorem compare_lt_trans {a b c : Key} (hab : compare a b = .lt) (hbc : compare b c = .lt) :
    compare a c = .lt := by
  induction a generalizing b c with
  | rational x =>
      cases b <;> cases c <;>
        first
        | exact compareOfLessAndEq_lt_trans hab hbc
        | simp [compare, rank, Nat.compare_eq_lt] at hab hbc ⊢
  | name s =>
      cases b <;> cases c <;>
        first
        | exact compareOfLessAndEq_lt_trans hab hbc
        | simp [compare, rank, Nat.compare_eq_lt] at hab hbc ⊢
  | group g =>
      cases b <;> cases c <;> simp [compare, rank, Nat.compare_eq_lt] at hab hbc ⊢
      omega
  | nil => cases b <;> cases c <;> simp [compare, rank, Nat.compare_eq_lt] at hab hbc ⊢
  | cons head tail ihHead ihTail =>
      cases b <;> cases c <;>
        simp [compare, rank, Nat.compare_eq_lt, Ordering.then_eq_lt] at hab hbc ⊢
      rcases hab with hab | ⟨heq, hab⟩ <;> rcases hbc with hbc | ⟨heq', hbc⟩
      · exact .inl (ihHead hab hbc)
      · exact .inl (compare_eq_iff.mp heq' ▸ hab)
      · exact .inl (compare_eq_iff.mp heq ▸ hbc)
      · exact .inr ⟨compare_eq_iff.mp heq ▸ heq', ihTail hab hbc⟩
  | set members ih =>
      cases b <;> cases c <;> simp [compare, rank, Nat.compare_eq_lt] at hab hbc ⊢
      exact ih hab hbc

/-! ## Ascending lists -/

/-- Every key of the list comes before all later ones. -/
def Ascending (keys : List Key) : Prop := keys.Pairwise fun a b => compare a b = .lt

theorem mem_insertMember {key other : Key} {keys : List Key} :
    other ∈ insertMember key keys ↔ other = key ∨ other ∈ keys := by
  induction keys with
  | nil => simp [insertMember]
  | cons first rest ih =>
      simp only [insertMember]
      cases hc : compare key first with
      | lt => simp
      | eq =>
          rw [compare_eq_iff] at hc
          simp [hc]
      | gt =>
          simp only [List.mem_cons, ih]
          tauto

theorem ascending_insertMember {key : Key} {keys : List Key} (h : Ascending keys) :
    Ascending (insertMember key keys) := by
  induction keys with
  | nil => simp [insertMember, Ascending]
  | cons first rest ih =>
      have hrest : ∀ other ∈ rest, compare first other = .lt := (List.pairwise_cons.mp h).1
      simp only [insertMember]
      cases hc : compare key first with
      | lt =>
          refine List.pairwise_cons.mpr ⟨fun other hother => ?_, h⟩
          rcases List.mem_cons.mp hother with rfl | hother
          · exact hc
          · exact compare_lt_trans hc (hrest other hother)
      | eq => exact h
      | gt =>
          refine List.pairwise_cons.mpr ⟨fun other hother => ?_, ih h.of_cons⟩
          rcases mem_insertMember.mp hother with rfl | hother
          · exact compare_gt_iff.mp hc
          · exact hrest other hother

theorem mem_ascending {key : Key} {keys : List Key} : key ∈ ascending keys ↔ key ∈ keys := by
  induction keys with
  | nil => simp [ascending]
  | cons first rest ih =>
      change key ∈ insertMember first (ascending rest) ↔ _
      rw [mem_insertMember, ih, List.mem_cons]

theorem ascending_ascending (keys : List Key) : Ascending (ascending keys) := by
  induction keys with
  | nil => exact List.Pairwise.nil
  | cons first rest ih => exact ascending_insertMember ih

theorem Ascending.nodup {keys : List Key} (h : Ascending keys) : keys.Nodup := by
  refine List.Pairwise.imp (fun {a b} hab => ?_) h
  rintro rfl
  rw [compare_self] at hab
  cases hab

theorem Ascending.eq_of_mem_iff {as bs : List Key} (ha : Ascending as) (hb : Ascending bs)
    (h : ∀ key, key ∈ as ↔ key ∈ bs) : as = bs := by
  have hperm : as.Perm bs := (List.perm_ext_iff_of_nodup ha.nodup hb.nodup).mpr h
  refine hperm.eq_of_pairwise (fun a b _ _ hab hba => ?_) ha hb
  have := compare_lt_trans hab hba
  rw [compare_self] at this
  cases this

/-! ## Sets -/

theorem tuple_injective : Function.Injective tuple := by
  intro as
  induction as with
  | nil => intro bs h; cases bs <;> simp_all [tuple]
  | cons a as ih =>
      intro bs h
      cases bs with
      | nil => simp [tuple] at h
      | cons b bs =>
          simp only [tuple, cons.injEq] at h
          rw [h.1, ih h.2]

@[simp] theorem tuple_inj {as bs : List Key} : tuple as = tuple bs ↔ as = bs :=
  tuple_injective.eq_iff

theorem setOf_eq_setOf_iff {as bs : List Key} :
    setOf as = setOf bs ↔ ∀ key, key ∈ as ↔ key ∈ bs := by
  simp only [setOf, set.injEq, tuple_inj]
  constructor
  · intro h key
    rw [← mem_ascending, h, mem_ascending]
  · intro h
    refine (ascending_ascending as).eq_of_mem_iff (ascending_ascending bs) fun key => ?_
    rw [mem_ascending, mem_ascending, h key]

end ExactAlgebra.Key
