import ExactAlgebra.Environment
import Mathlib

/-!
# Histories of definitions and removals

A removal is refused unless the entry has a body, so a built-in function stays in the
table until a definition replaces it.  The replacement has a body: a removal after it
leaves nothing under the name.
-/

namespace ExactAlgebra

/-! ## Entries by name -/

namespace Registry

variable {α : Type} {registry after : Registry α} {name other : String} {entry : α}
  {overwrite : Bool}

theorem contains_iff :
    registry.contains name = true ↔ ∃ entry, registry.get? name = some entry := by
  have h : registry.contains name = (registry.get? name).isSome := by
    rw [contains, get?, Option.isSome_map, List.isSome_find?]
  rw [h, Option.isSome_iff_exists]

theorem contains_of_mem_names (h : name ∈ registry.names) : registry.contains name = true := by
  obtain ⟨pair, hmem, rfl⟩ := List.mem_map.mp h
  exact List.any_eq_true.mpr ⟨pair, hmem, by simp⟩

/-- Replacing the entry under one name. -/
theorem find?_replace (entries : List (String × α)) (name other : String) (entry : α) :
    (entries.map fun old => if old.1 == name then (name, entry) else old).find?
        (fun old => old.1 == other) =
      if other = name then (entries.find? fun old => old.1 == name).map fun _ => (name, entry)
      else entries.find? fun old => old.1 == other := by
  induction entries with
  | nil => simp
  | cons old rest ih =>
      rw [List.map_cons, List.find?_cons, List.find?_cons, List.find?_cons, ih]
      by_cases hother : other = name
      · cases hold : old.1 == name <;> simp [hold, hother]
      · have hne : (name == other) = false := by simpa using fun h => hother h.symm
        by_cases hold : old.1 = name <;> simp [hold, hother, hne]

theorem get?_register_self (h : registry.register name entry overwrite = .ok after) :
    after.get? name = some entry := by
  unfold register at h
  cases hcontains : registry.contains name with
  | false =>
      obtain rfl : ⟨registry.entries ++ [(name, entry)]⟩ = after := by simpa [hcontains] using h
      have hfind : registry.entries.find? (fun old => old.1 == name) = none := by
        simpa [contains] using hcontains
      simp [get?, List.find?_append, hfind]
  | true =>
      obtain ⟨old, hold⟩ := contains_iff.mp hcontains
      obtain ⟨pair, hfind, -⟩ := Option.map_eq_some_iff.mp hold
      cases overwrite <;> simp only [hcontains, if_true, Bool.false_eq_true, if_false,
        Except.ok.injEq, reduceCtorEq] at h
      rw [← h, get?, find?_replace, if_pos rfl, hfind]
      rfl

theorem get?_register_of_ne (h : registry.register name entry overwrite = .ok after)
    (hne : other ≠ name) : after.get? other = registry.get? other := by
  unfold register at h
  cases hcontains : registry.contains name with
  | false =>
      obtain rfl : ⟨registry.entries ++ [(name, entry)]⟩ = after := by simpa [hcontains] using h
      have hname : (name == other) = false := by simpa using hne.symm
      simp [get?, List.find?_append, hname]
  | true =>
      cases overwrite <;> simp only [hcontains, if_true, Bool.false_eq_true, if_false,
        Except.ok.injEq, reduceCtorEq] at h
      rw [← h, get?, get?, find?_replace, if_neg hne]

/-- Without the request to replace, only a free name is taken. -/
theorem overwrite_of_register (h : registry.register name entry overwrite = .ok after)
    (hcontains : registry.contains name = true) : overwrite = true := by
  unfold register at h
  cases overwrite <;> simp_all

theorem get?_remove_of_ne {removed : α} (h : registry.remove name = .ok (removed, after))
    (hne : other ≠ name) : after.get? other = registry.get? other := by
  unfold remove at h
  cases hget : registry.get? name with
  | none => simp [hget] at h
  | some old =>
      obtain ⟨-, rfl⟩ : old = removed ∧
          ⟨registry.entries.filter fun old => old.1 != name⟩ = after := by simpa [hget] using h
      rw [get?, get?, List.find?_filter]
      congr 2
      funext pair
      by_cases hpair : pair.1 = other <;> simp [hpair, hne]

end Registry

/-! ## Calls that change the table -/

/-- A definition or a removal of a function. -/
inductive FunctionEdit where
  | define (name : String) (parameters : List String) (body : String) (overwrite : Bool)
  | undefine (name : String)

namespace Environment

variable {env after : Environment} {edit : FunctionEdit} {edits : List FunctionEdit}
  {name : String} {entry : FunctionEntry}

def edited (env : Environment) : FunctionEdit → Except Fault Environment
  | .define name parameters body overwrite => env.defineFunction name parameters body overwrite
  | .undefine name => env.undefineFunction name

/-- The environment after some calls, of which those that fail change nothing. -/
def editAll (env : Environment) : List FunctionEdit → Environment
  | [] => env
  | edit :: edits =>
      match env.edited edit with
      | .ok after => after.editAll edits
      | .error _ => env.editAll edits

/-- What a definition does. -/
theorem register_of_defineFunction {parameters : List String} {body : String} {overwrite : Bool}
    (h : env.defineFunction name parameters body overwrite = .ok after) :
    env.functions.register name ⟨.exactly parameters.length, .byBody parameters body⟩ overwrite =
      .ok after.functions := by
  unfold defineFunction FunctionTable.define at h
  cases hnames : FunctionTable.checkNames name parameters with
  | error fault => simp [hnames, bind, Except.bind] at h
  | ok _ =>
      cases hbody : env.readText [] body with
      | error fault => simp [hnames, hbody, bind, Except.bind] at h
      | ok node =>
          cases hregister : env.functions.register name
              ⟨.exactly parameters.length, .byBody parameters body⟩ overwrite with
          | error fault => simp [hnames, hbody, hregister, bind, Except.bind] at h
          | ok functions =>
              simp only [hnames, hbody, hregister, bind, Except.bind, pure, Except.pure,
                Except.ok.injEq] at h
              rw [← h]

/-- What a removal does, and what it asks for. -/
theorem remove_of_undefineFunction (h : env.undefineFunction name = .ok after) :
    ∃ arity parameters body removed,
      env.functions.get? name = some ⟨arity, .byBody parameters body⟩ ∧
        env.functions.remove name = .ok (removed, after.functions) := by
  unfold undefineFunction FunctionTable.undefine at h
  match hget : env.functions.get? name with
  | none => simp [hget, bind, Except.bind] at h
  | some ⟨arity, .builtIn rule⟩ => simp [hget, bind, Except.bind] at h
  | some ⟨arity, .byBody parameters body⟩ =>
      cases hremove : env.functions.remove name with
      | error fault => simp [hget, hremove, bind, Except.bind, Except.map] at h
      | ok result =>
          simp only [hget, hremove, bind, Except.bind, Except.map, pure, Except.pure,
            Except.ok.injEq] at h
          exact ⟨arity, parameters, body, result.1, rfl, by rw [← h]⟩

/-- A built-in entry stays unless a definition replaces it. -/
theorem get?_edited {arity : Arity} {rule : Rule}
    (hentry : env.functions.get? name = some ⟨arity, .builtIn rule⟩)
    (h : env.edited edit = .ok after) :
    after.functions.get? name = some ⟨arity, .builtIn rule⟩ ∨
      ∃ parameters body, edit = .define name parameters body true := by
  cases edit with
  | define other parameters body overwrite =>
      have hregister := register_of_defineFunction h
      by_cases hname : name = other
      · subst hname
        obtain rfl : overwrite = true :=
          Registry.overwrite_of_register hregister (Registry.contains_iff.mpr ⟨_, hentry⟩)
        exact .inr ⟨parameters, body, rfl⟩
      · exact .inl ((Registry.get?_register_of_ne hregister hname).trans hentry)
  | undefine other =>
      obtain ⟨_, _, _, _, hbody, hremove⟩ := remove_of_undefineFunction h
      by_cases hname : name = other
      · subst hname
        simp [hentry] at hbody
      · exact .inl ((Registry.get?_remove_of_ne hremove hname).trans hentry)

/-- A name is taken until a removal names it. -/
theorem contains_edited (hcontains : env.functions.contains name = true)
    (h : env.edited edit = .ok after) :
    after.functions.contains name = true ∨ edit = .undefine name := by
  obtain ⟨entry, hentry⟩ := Registry.contains_iff.mp hcontains
  cases edit with
  | define other parameters body overwrite =>
      have hregister := register_of_defineFunction h
      refine .inl (Registry.contains_iff.mpr ?_)
      by_cases hname : name = other
      · exact ⟨_, hname ▸ Registry.get?_register_self hregister⟩
      · exact ⟨entry, (Registry.get?_register_of_ne hregister hname).trans hentry⟩
  | undefine other =>
      obtain ⟨_, _, _, _, -, hremove⟩ := remove_of_undefineFunction h
      by_cases hname : name = other
      · exact .inr (hname ▸ rfl)
      · exact .inl (Registry.contains_iff.mpr
          ⟨entry, (Registry.get?_remove_of_ne hremove hname).trans hentry⟩)

theorem contains_editAll (hcontains : env.functions.contains name = true) :
    (env.editAll edits).functions.contains name = true ∨ FunctionEdit.undefine name ∈ edits := by
  induction edits generalizing env with
  | nil => exact .inl hcontains
  | cons edit edits ih =>
      cases h : env.edited edit with
      | error fault => simpa [editAll, h] using (ih hcontains).imp_right .inr
      | ok after =>
          rw [editAll, h]
          obtain hcontains' | rfl := contains_edited hcontains h
          · exact (ih hcontains').imp_right (List.mem_cons_of_mem _)
          · exact .inr List.mem_cons_self

/-- A built-in entry stays, or a definition replaces it; then the name is taken until a
removal that comes later. -/
theorem get?_editAll (edits : List FunctionEdit) {arity : Arity} {rule : Rule}
    (hentry : env.functions.get? name = some ⟨arity, .builtIn rule⟩) :
    (env.editAll edits).functions.get? name = some ⟨arity, .builtIn rule⟩ ∨
      ∃ parameters body, .define name parameters body true ∈ edits ∧
        ((env.editAll edits).functions.contains name = true ∨
          [.define name parameters body true, .undefine name].Sublist edits) := by
  induction edits generalizing env with
  | nil => exact .inl hentry
  | cons edit edits ih =>
      cases h : env.edited edit with
      | error fault =>
          rw [editAll, h]
          refine (ih hentry).imp_right ?_
          rintro ⟨parameters, body, hmem, hlater⟩
          exact ⟨parameters, body, .tail _ hmem, hlater.imp_right (.cons _)⟩
      | ok after =>
          rw [editAll, h]
          obtain hentry' | ⟨parameters, body, rfl⟩ := get?_edited hentry h
          · refine (ih hentry').imp_right ?_
            rintro ⟨parameters, body, hmem, hlater⟩
            exact ⟨parameters, body, .tail _ hmem, hlater.imp_right (.cons _)⟩
          · have hcontains : after.functions.contains name = true :=
              Registry.contains_iff.mpr
                ⟨_, Registry.get?_register_self (register_of_defineFunction h)⟩
            refine .inr ⟨parameters, body, List.mem_cons_self,
              (contains_editAll hcontains).imp_right fun hmem => ?_⟩
            exact (List.singleton_sublist.mpr hmem).cons_cons _

/-! ## Built-in functions -/

/-- Every entry of the built-in table has a rule. -/
theorem exists_rule (hname : name ∈ FunctionTable.standard.names) :
    ∃ arity rule, FunctionTable.standard.get? name = some ⟨arity, .builtIn rule⟩ := by
  have hall : FunctionTable.standard.entries.all (fun entry =>
      match entry.2.definition with
      | .builtIn _ => true
      | .byBody .. => false) = true := rfl
  obtain ⟨⟨arity, definition⟩, hget⟩ :=
    Registry.contains_iff.mp (Registry.contains_of_mem_names hname)
  obtain ⟨pair, hfind, hentry⟩ := Option.map_eq_some_iff.mp hget
  have hrule := List.all_eq_true.mp hall pair (List.mem_of_find?_eq_some hfind)
  cases definition with
  | builtIn rule => exact ⟨arity, rule, hget⟩
  | byBody parameters body => simp [hentry] at hrule

/-- From the built-in table on, a built-in function keeps its entry through all calls, also
those that fail, as long as no definition asks to replace it.  In any case its name stays
taken unless a removal comes after such a definition. -/
theorem editAll_keeps_standard (hfunctions : env.functions = .standard)
    (hname : name ∈ FunctionTable.standard.names) (edits : List FunctionEdit) :
    ((∀ parameters body, .define name parameters body true ∉ edits) →
        (env.editAll edits).functions.get? name = FunctionTable.standard.get? name) ∧
      ((env.editAll edits).functions.contains name = true ∨
        ∃ parameters body,
          [.define name parameters body true, .undefine name].Sublist edits) := by
  obtain ⟨arity, rule, hrule⟩ := exists_rule hname
  have hentry : env.functions.get? name = some ⟨arity, .builtIn rule⟩ := hfunctions ▸ hrule
  obtain hkept | ⟨parameters, body, hmem, hlater⟩ := get?_editAll edits hentry
  · exact ⟨fun _ => hkept.trans hrule.symm, .inl (Registry.contains_iff.mpr ⟨_, hkept⟩)⟩
  · exact ⟨fun hnone => absurd hmem (hnone parameters body),
      hlater.imp_right fun hsub => ⟨parameters, body, hsub⟩⟩

/-- A definition without the request to replace fails, and so does the removal of a built-in
function. -/
theorem editAll_keeps_standard_sin :
    let edits : List FunctionEdit := [.define "sin" ["x"] "x" false, .undefine "sin",
      .define "f" ["x"] "sin(x)" true, .undefine "f"]
    Environment.standard.functions = .standard ∧ "sin" ∈ FunctionTable.standard.names ∧
      (∀ parameters body, .define "sin" parameters body true ∉ edits) ∧
      (Environment.standard.editAll edits).functions.get? "sin" =
        FunctionTable.standard.get? "sin" := by
  intro edits
  have hnames : "sin" ∈ FunctionTable.standard.names := by decide
  have hnone : ∀ parameters body, .define "sin" parameters body true ∉ edits := by
    simp [edits]
  exact ⟨rfl, hnames, hnone, (editAll_keeps_standard rfl hnames edits).1 hnone⟩

/-- After a definition has replaced it, a built-in function can be removed. -/
theorem not_contains_editAll_standard :
    "sin" ∈ FunctionTable.standard.names ∧
      (Environment.standard.editAll
        [.define "sin" ["x"] "x" true, .undefine "sin"]).functions.contains "sin" = false := by
  refine ⟨by decide, ?_⟩
  cbv

end Environment

end ExactAlgebra
