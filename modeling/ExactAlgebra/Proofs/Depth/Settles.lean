import ExactAlgebra.Proofs.Canonical.Arithmetic

/-!
# Enough depth

A run settles if all depths that are large enough give one outcome, and smaller depths
give that outcome or none.  What is put together from runs that settle settles too, so
an operation that is run with as much depth as it takes has the outcome of large depths.
-/

namespace ExactAlgebra

namespace Reduce

variable {α β : Type} {run : Nat → Except Fault α} {next : Nat → α → Except Fault β}
  {step : Nat → β → α → Except Fault β} {outcome : Except Fault α}

/-- Depths that are large enough give one outcome, and all others lack depth at worst. -/
structure Settles (run : Nat → Except Fault α) (outcome : Except Fault α) : Prop where
  early : ∀ depth, run depth = .error .exhausted ∨ run depth = outcome
  late : ∀ᶠ depth in Filter.atTop, run depth = outcome

/-- Depths that are large enough give one value, which has a property. -/
def Reaches (run : Nat → Except Fault α) (property : α → Prop) : Prop :=
  ∃ value, Settles run (.ok value) ∧ property value

namespace Settles

theorem const (outcome : Except Fault α) : Settles (fun _ => outcome) outcome :=
  ⟨fun _ => .inr rfl, .of_forall fun _ => rfl⟩

/-- A run that spends one level of depth. -/
theorem succ (hzero : run 0 = .error .exhausted)
    (h : Settles (fun depth => run (depth + 1)) outcome) : Settles run outcome where
  early depth := by
    cases depth with
    | zero => exact .inl hzero
    | succ depth => exact h.early depth
  late := by
    obtain ⟨enough, henough⟩ := Filter.eventually_atTop.mp h.late
    refine Filter.eventually_atTop.mpr ⟨enough + 1, fun depth hdepth => ?_⟩
    obtain ⟨depth, rfl⟩ := Nat.exists_eq_add_of_le' (Nat.le_of_add_left_le hdepth)
    exact henough depth (by omega)

theorem bind {value : α} {outcome : Except Fault β} (h : Settles run (.ok value))
    (hnext : Settles (fun depth => next depth value) outcome) :
    Settles (fun depth => run depth >>= next depth) outcome where
  early depth := by
    rcases h.early depth with hrun | hrun
    · exact .inl (by rw [hrun]; rfl)
    · rw [hrun]
      exact hnext.early depth
  late := (h.late.and hnext.late).mono fun depth ⟨hrun, houtcome⟩ => by
    rw [hrun]
    exact houtcome

theorem error_bind {fault : Fault} (h : Settles run (.error fault)) :
    Settles (fun depth => run depth >>= next depth) (.error fault) where
  early depth := (h.early depth).imp (fun hrun => by rw [hrun]; rfl) fun hrun => by rw [hrun]; rfl
  late := h.late.mono fun depth hrun => by rw [hrun]; rfl

/-- What all runs give if they give anything. -/
theorem property {value : α} {property : α → Prop} (h : Settles run (.ok value))
    (hrun : ∀ depth result, run depth = .ok result → property result) : property value := by
  obtain ⟨depth, hdepth⟩ := h.late.exists
  exact hrun depth value hdepth

end Settles

namespace Reaches

variable {property property' : α → Prop} {goal : β → Prop}

theorem ok {value : α} (h : property value) : Reaches (fun _ => .ok value) property :=
  ⟨value, .const _, h⟩

theorem mono (h : Reaches run property) (himp : ∀ value, property value → property' value) :
    Reaches run property' := by
  obtain ⟨value, hsettles, hvalue⟩ := h
  exact ⟨value, hsettles, himp value hvalue⟩

theorem succ (hzero : run 0 = .error .exhausted)
    (h : Reaches (fun depth => run (depth + 1)) property) : Reaches run property := by
  obtain ⟨value, hsettles, hvalue⟩ := h
  exact ⟨value, hsettles.succ hzero, hvalue⟩

theorem bind (h : Reaches run property)
    (hnext : ∀ value, property value → Reaches (fun depth => next depth value) goal) :
    Reaches (fun depth => run depth >>= next depth) goal := by
  obtain ⟨value, hsettles, hvalue⟩ := h
  obtain ⟨result, hresult, hgoal⟩ := hnext value hvalue
  exact ⟨result, hsettles.bind hresult, hgoal⟩

/-- What all runs give if they give anything joins the property. -/
theorem and (h : Reaches run property)
    (hrun : ∀ depth result, run depth = .ok result → property' result) :
    Reaches run fun value => property value ∧ property' value := by
  obtain ⟨value, hsettles, hvalue⟩ := h
  exact ⟨value, hsettles, hvalue, hsettles.property hrun⟩

/-- A loop over a list, with what is known after each part of the list. -/
theorem foldlM {items : List α} {start : β} (known : List α → β → Prop) (hstart : known [] start)
    (hstep : ∀ before item after, items = before ++ item :: after → ∀ value, known before value →
      Reaches (fun depth => step depth value item) (known (before ++ [item]))) :
    Reaches (fun depth => items.foldlM (step depth) start) (known items) := by
  induction items using List.reverseRecOn with
  | nil => exact .ok hstart
  | append_singleton before item ih =>
      have hbefore := ih fun before' item' after' h value hvalue =>
        hstep before' item' (after' ++ [item]) (by simp [h]) value hvalue
      simp only [List.foldlM_append, List.foldlM_cons, List.foldlM_nil, bind_pure]
      exact hbefore.bind fun value hvalue => hstep before item [] (by simp) value hvalue

end Reaches

end Reduce

/-! ## Operations -/

namespace Arithmetic

open Reduce

variable {run : Nat → Except Fault Expr} {outcome : Except Fault Expr}

theorem deepen_step (run : Nat → Except Fault Expr) (depth : Nat) : deepen run depth =
    match run depth with
    | .error .exhausted => deepen run (2 * depth)
    | _ => depth := by
  rw [deepen, repeatM_eq_of_monadTail, repeatM.body]
  generalize run depth = outcome
  cases outcome with
  | ok node => rfl
  | error fault => cases fault <;> rfl

/-- Doubling the depth comes to a depth that is enough. -/
theorem run_deepen (h : Settles run outcome) (hne : outcome ≠ .error .exhausted) {depth : Nat}
    (hdepth : 0 < depth) : depth ≤ deepen run depth ∧ run (deepen run depth) = outcome := by
  obtain ⟨enough, henough⟩ := Filter.eventually_atTop.mp h.late
  suffices ∀ rounds depth, 0 < depth → enough ≤ depth + rounds →
      depth ≤ deepen run depth ∧ run (deepen run depth) = outcome from
    this enough depth hdepth (Nat.le_add_left _ _)
  intro rounds
  induction rounds with
  | zero =>
      intro depth _ hle
      have hdeepen : deepen run depth = depth := by
        rw [deepen_step, henough depth hle]
        split
        next => exact absurd rfl hne
        next => rfl
      rw [hdeepen]
      exact ⟨le_rfl, henough depth hle⟩
  | succ rounds ih =>
      intro depth hpos hle
      rw [deepen_step]
      split
      next =>
        obtain ⟨hle', hfound⟩ := ih (2 * depth) (by omega) (by omega)
        exact ⟨by omega, hfound⟩
      next hfound => exact ⟨le_rfl, (h.early depth).resolve_left hfound⟩

/-- An operation has the outcome of large depths. -/
theorem settled_eq (h : Settles run outcome) (hne : outcome ≠ .error .exhausted) :
    settled run = outcome := by
  unfold settled
  split
  next =>
    obtain ⟨hle, hfound⟩ := run_deepen h hne (show 0 < 2 * firstDepth by decide)
    rwa [max_eq_right (by omega)]
  next hfound => exact (h.early firstDepth).resolve_left hfound

end Arithmetic

end ExactAlgebra
