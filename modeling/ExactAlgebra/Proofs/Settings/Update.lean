import ExactAlgebra.Settings

/-!
# Calls that are refused

An update goes through its values in turn, and the first that is refused ends it.  What the
values before it have changed stays changed, and nothing else is.  Calls that define or forget
variables change one setting at the end, so if they are refused, all settings are as before.
-/

namespace ExactAlgebra.Settings

variable {settings after : Settings} {key : String} {value : Value} {fault : Fault}
  {values : List (String × Value)} {call : Change}

/-! ## Single settings -/

/-- Both have one value under a key. -/
def SameAt (key : String) (a b : Settings) : Prop :=
  match key with
  | "numeric" => a.mode.numeric = b.mode.numeric
  | "suppress_errors" => a.mode.suppressErrors = b.mode.suppressErrors
  | "imaginary" => a.mode.imaginary = b.mode.imaginary
  | "allowed_characters" => a.extraLetters = b.extraLetters
  | "variables" => a.bindings = b.bindings
  | _ => True

theorem SameAt.refl (key : String) (settings : Settings) : SameAt key settings settings := by
  unfold SameAt
  split <;> trivial

theorem SameAt.trans {a b c : Settings} (hab : SameAt key a b) (hbc : SameAt key b c) :
    SameAt key a c := by
  unfold SameAt at *
  split <;> simp_all

/-- What a new value may do. -/
theorem set_cases (h : settings.set key value = .ok after) :
    (key = "numeric" ∧ ∃ flag, after = { settings with
      mode := { settings.mode with numeric := flag } }) ∨
    (key = "suppress_errors" ∧ ∃ flag, after = { settings with
      mode := { settings.mode with suppressErrors := flag } }) ∨
    (key = "imaginary" ∧ ∃ name, after = { settings with
      mode := { settings.mode with imaginary := name } }) ∨
    (key = "allowed_characters" ∧ ∃ letters, after = { settings with extraLetters := letters }) ∨
    (key = "variables" ∧ ∃ bindings, after = { settings with bindings := bindings }) := by
  unfold set at h
  split at h
  case h_1 => exact .inl ⟨rfl, _, (Except.ok.inj h).symm⟩
  case h_2 => exact .inr (.inl ⟨rfl, _, (Except.ok.inj h).symm⟩)
  case h_3 =>
    split at h
    · split at h
      · exact .inr (.inr (.inl ⟨rfl, _, (Except.ok.inj h).symm⟩))
      · cases h
    · cases h
  case h_4 =>
    cases hletters : letters value with
    | error fault => simp [hletters, bind, Except.bind] at h
    | ok found =>
        simp only [hletters, bind, Except.bind] at h
        exact .inr (.inr (.inr (.inl ⟨rfl, _, (Except.ok.inj h).symm⟩)))
  case h_5 =>
    cases hbindings : bindingsOf value with
    | error fault => simp [hbindings, bind, Except.bind] at h
    | ok found =>
        simp only [hbindings, bind, Except.bind] at h
        exact .inr (.inr (.inr (.inr ⟨rfl, _, (Except.ok.inj h).symm⟩)))
  case h_6 => cases h

/-- A new value leaves the other settings as they are. -/
theorem sameAt_set (h : settings.set key value = .ok after) {other : String}
    (hother : other ≠ key) : SameAt other settings after := by
  unfold SameAt
  rcases set_cases h with ⟨rfl, _, rfl⟩ | ⟨rfl, _, rfl⟩ | ⟨rfl, _, rfl⟩ | ⟨rfl, _, rfl⟩ |
    ⟨rfl, _, rfl⟩ <;> split <;> trivial

/-! ## Updates -/

/-- An update leaves the settings as they are that it does not name. -/
theorem sameAt_update {other : String} (hother : other ∉ values.map Prod.fst) :
    SameAt other settings (settings.update values).1 := by
  induction values generalizing settings with
  | nil => exact .refl other settings
  | cons entry rest ih =>
      obtain ⟨key, value⟩ := entry
      rw [List.map_cons, List.mem_cons, not_or] at hother
      rw [update]
      cases hset : settings.set key value with
      | ok next => exact (sameAt_set hset hother.1).trans (ih hother.2)
      | error fault => exact .refl other settings

/-- A refused update has applied the values before the first that is refused. -/
theorem exists_of_update_fault (h : settings.update values = (after, some fault)) :
    ∃ accepted key value rest, values = accepted ++ (key, value) :: rest ∧
      settings.update accepted = (after, none) ∧ after.set key value = .error fault := by
  induction values generalizing settings with
  | nil => cases h
  | cons entry rest ih =>
      obtain ⟨key, value⟩ := entry
      rw [update] at h
      cases hset : settings.set key value with
      | ok next =>
          rw [hset] at h
          obtain ⟨accepted, key', value', rest', rfl, haccepted, hfault⟩ := ih h
          refine ⟨(key, value) :: accepted, key', value', rest', rfl, ?_, hfault⟩
          rw [update, hset]
          exact haccepted
      | error cause =>
          rw [hset] at h
          cases h
          exact ⟨[], key, value, rest, rfl, rfl, hset⟩

theorem update_singleton_of_fault (h : (settings.update [(key, value)]).2 = some fault) :
    (settings.update [(key, value)]).1 = settings := by
  rw [update] at h ⊢
  cases hset : settings.set key value with
  | ok next =>
      rw [hset] at h
      cases h
  | error cause => rfl

/-! ## Main result -/

/-- A refused update keeps the new values before the first that is refused and no others; a
refused definition or removal of variables changes nothing. -/
theorem change_of_fault (h : (settings.change call).2 = some fault) :
    match call with
    | .update values =>
        ∃ accepted key value rest, values = accepted ++ (key, value) :: rest ∧
          settings.update accepted = ((settings.change call).1, none) ∧
          (settings.change call).1.set key value = .error fault ∧
          ∀ other ∉ accepted.map Prod.fst, SameAt other settings (settings.change call).1
    | .define _ | .undefine _ => (settings.change call).1 = settings := by
  cases call with
  | update values =>
      obtain ⟨accepted, key, value, rest, hvalues, haccepted, hfault⟩ :=
        exists_of_update_fault (Prod.ext rfl h)
      refine ⟨accepted, key, value, rest, hvalues, haccepted, hfault, fun other hother => ?_⟩
      have hsame : SameAt other settings (settings.update accepted).1 := sameAt_update hother
      rwa [haccepted] at hsame
  | define values => exact update_singleton_of_fault h
  | undefine names =>
      simp only [change] at h ⊢
      split at h
      next hmissing =>
        rw [if_pos hmissing]
        exact update_singleton_of_fault h
      next hmissing => rw [if_neg hmissing]

/-- The unknown setting ends the update after the imaginary unit got another name. -/
theorem change_of_fault_unknown :
    let call := Change.update [("imaginary", .text "j"), ("precision", .integer 3),
      ("numeric", .bool true)]
    let after := (standard.change call).1
    (standard.change call).2 = some (.unknownSetting "precision") ∧
      ∃ accepted key value rest,
        [("imaginary", Value.text "j"), ("precision", .integer 3), ("numeric", .bool true)] =
          accepted ++ (key, value) :: rest ∧
        standard.update accepted = (after, none) ∧
        after.set key value = .error (.unknownSetting "precision") ∧
        ∀ other ∉ accepted.map Prod.fst, SameAt other standard after := by
  intro call after
  have h : (standard.change call).2 = some (.unknownSetting "precision") := by decide +kernel
  exact ⟨h, change_of_fault h⟩

/-- A refused update need not leave all settings as they are. -/
theorem not_unchanged_update :
    let (after, fault) := standard.update [("imaginary", .text "j"), ("precision", .integer 3)]
    fault = some (.unknownSetting "precision") ∧ standard.mode.imaginary = "i" ∧
      after.mode.imaginary = "j" := by
  decide +kernel

end ExactAlgebra.Settings
