import ExactAlgebra.Proofs.Function.History
import ExactAlgebra.Proofs.Reading.Denoted

/-!
# Registered variables

With the built-in functions alone, a text means under registered variables what it means
without them, under substitutions by their values.  A value is read on its own, so that
variables that name each other, or themselves, have values as well.
-/

namespace ExactAlgebra

namespace Environment

variable {env : Environment} {table : OperatorTable} {substitutions values : Substitutions}

/-- The environment without registered variables. -/
def unregistered (env : Environment) : Environment :=
  { env with settings := { env.settings with bindings := [] } }

@[simp] theorem unregistered_functions : env.unregistered.functions = env.functions := rfl

/-! ## Calls of built-in functions -/

theorem exists_builtIn {name : String} {entry : FunctionEntry}
    (h : FunctionTable.standard.get? name = some entry) :
    ∃ rule, entry.definition = .builtIn rule := by
  obtain ⟨pair, hfind, -⟩ := Option.map_eq_some_iff.mp h
  have hname : pair.1 = name := by simpa using List.find?_some hfind
  have hmem : name ∈ FunctionTable.standard.names :=
    hname ▸ List.mem_map_of_mem (List.mem_of_find?_eq_some hfind)
  obtain ⟨arity, rule, hrule⟩ := exists_rule hmem
  obtain rfl : entry = ⟨arity, .builtIn rule⟩ := Option.some.inj (h.symm.trans hrule)
  exact ⟨rule, rfl⟩

variable (hfunctions : env.functions = .standard) (read read' : Reader)

include hfunctions

/-- Built-in functions read no texts and look up no variables. -/
theorem callWith_unregistered (name : String) (args : List Expr) :
    env.callWith read name args = env.unregistered.callWith read' name args := by
  unfold callWith
  rw [unregistered_functions, hfunctions]
  cases hentry : FunctionTable.standard.get? name with
  | none => rfl
  | some entry =>
      obtain ⟨rule, hrule⟩ := exists_builtIn hentry
      simp only [hrule]
      rfl

theorem operateWith_unregistered (operation : Operation) (operands : List Expr) :
    env.operateWith read operation operands =
      env.unregistered.operateWith read' operation operands := by
  have hcall := callWith_unregistered hfunctions read read'
  unfold operateWith
  split <;> first | rfl | exact hcall _ _

theorem evaluateItems_unregistered (items : List (PostfixItem Expr)) (stack : List Expr) :
    env.evaluateItems read stack items = env.unregistered.evaluateItems read' stack items := by
  induction items generalizing stack with
  | nil => rfl
  | cons item items ih =>
      cases item with
      | operand value => exact ih (value :: stack)
      | operator operator =>
          simp only [evaluateItems, operateWith_unregistered hfunctions read read', ih]
      | call name count =>
          simp only [evaluateItems, callWith_unregistered hfunctions read read', ih]
      | missingProduct => rfl

/-- Texts with the same tokens and the same operands mean the same. -/
theorem readWith_unregistered
    (hoperand : env.operand read substitutions = env.unregistered.operand read' values)
    (text : String) :
    env.readWith read table substitutions text =
      env.unregistered.readWith read' table values text := by
  have hgrammar : env.grammar read table substitutions =
      env.unregistered.grammar read' table values := by
    rw [grammar, grammar, hoperand, unregistered_functions]
  have hitems := evaluateItems_unregistered hfunctions read read'
  have htokens : env.unregistered.tokens table text = env.tokens table text := rfl
  simp only [readWith, hgrammar, hitems, htokens]

/-- Without registered variables no text is nested in another. -/
theorem readNested_unregistered (depth depth' : Nat) (text : String) :
    readNested (depth + 1) env.unregistered substitutions text =
      readNested (depth' + 1) env.unregistered substitutions text := by
  have hoperand : env.unregistered.operand (readNested depth) substitutions =
      env.unregistered.operand (readNested depth') substitutions := by
    funext name position
    have hbinding : env.unregistered.settings.binding? name = none := rfl
    simp only [operand, hbinding]
  have hstandard : env.unregistered.functions = .standard := hfunctions
  exact readWith_unregistered hstandard _ _ hoperand text

/-! ## Values of registered variables -/

/-- A binding stands for the same whether its name occurs in a text or its value is
converted. -/
theorem valueOf_eq_toExpr (depth : Nat) (binding : Binding) :
    env.valueOf (readNested (depth + 1)) binding = env.unregistered.toExpr binding.toValue := by
  cases binding with
  | text text => exact readNested_unregistered hfunctions depth 127 text
  | node _ | rational _ => rfl

theorem valueOf_find? (depth : Nat) {bindings : List (String × Binding)}
    (hvalues : env.unregistered.substitutionsOf
      (bindings.map fun entry => (entry.1, entry.2.toValue)) = .ok values) (name : String) :
    (values.find? fun entry => entry.1 == name).map (fun entry => .ok entry.2) =
      (bindings.find? fun entry => entry.1 == name).map
        fun entry => env.valueOf (readNested (depth + 1)) entry.2 := by
  induction bindings generalizing values with
  | nil =>
      obtain rfl : [] = values := by simpa [substitutionsOf, pure, Except.pure] using hvalues
      rfl
  | cons entry bindings ih =>
      rw [List.map_cons, substitutionsOf, List.mapM_cons] at hvalues
      obtain ⟨pair, hpair, hvalues⟩ := exists_of_bind hvalues
      obtain ⟨value, hvalue, hpair⟩ := exists_of_bind hpair
      obtain rfl : (entry.1, value) = pair := Except.ok.inj hpair
      obtain ⟨others, hothers, hvalues⟩ := exists_of_bind hvalues
      obtain rfl : (entry.1, value) :: others = values := Except.ok.inj hvalues
      rw [List.find?_cons, List.find?_cons]
      cases hname : entry.1 == name with
      | true => simp [valueOf_eq_toExpr hfunctions, hvalue]
      | false => simpa using ih hothers

/-- A name stands for the value that is registered under it as it would for the same
substitution. -/
theorem operand_unregistered (depth : Nat)
    (hnames : ∀ entry ∈ env.settings.bindings, env.functions.contains entry.1 = false)
    (hvalues : env.unregistered.substitutionsOf env.settings.registered = .ok values) :
    env.operand (readNested (depth + 1)) [] =
      env.unregistered.operand (readNested (depth + 1)) values := by
  funext name position
  have hfind := valueOf_find? hfunctions depth hvalues name
  simp only [operand, List.find?_nil, Settings.binding?]
  cases hbinding : env.settings.bindings.find? fun entry => entry.1 == name with
  | none =>
      rw [hbinding, Option.map_none, Option.map_eq_none_iff] at hfind
      rw [hfind]
      rfl
  | some entry =>
      have hname : entry.1 = name := by simpa using List.find?_some hbinding
      have hfree := hnames entry (List.mem_of_find?_eq_some hbinding)
      rw [hname] at hfree
      rw [hbinding, Option.map_some] at hfind
      obtain ⟨pair, hpair, hvalue⟩ := Option.map_eq_some_iff.mp hfind
      simp [hpair, hfree, hvalue]

omit hfunctions

/-! ## Texts under registered variables -/

/-- Registered variables that are no functions, whose values can be converted on their own, act
as substitutions by these values: every text has the same outcome in every notation. -/
theorem readText_registered (hfunctions : env.functions = .standard)
    (hnames : ∀ entry ∈ env.settings.bindings, env.functions.contains entry.1 = false)
    (hvalues : env.unregistered.substitutionsOf env.settings.registered = .ok values) :
    (∀ text, env.readText [] text = env.unregistered.readText values text) ∧
      ∀ table text, env.readTextIn table [] text =
        env.unregistered.readTextIn table values text :=
  ⟨readWith_unregistered hfunctions _ _ (operand_unregistered hfunctions 126 hnames hvalues),
    fun _ => readWith_unregistered hfunctions _ _
      (operand_unregistered hfunctions 127 hnames hvalues)⟩

/-- Variables that name each other, and one that names itself. -/
theorem readText_registered_cycle :
    let bindings := [("x", .text "y+1"), ("y", .text "2x"), ("z", .text "z^2"), ("n", .rational 3)]
    let env := { standard with settings := { Settings.standard with bindings := bindings } }
    env.functions = .standard ∧
      (∀ entry ∈ env.settings.bindings, env.functions.contains entry.1 = false) ∧
      ∃ values, env.unregistered.substitutionsOf env.settings.registered = .ok values ∧
        (∃ node, env.readText [] "x y - z^n" = .ok node) ∧
        env.readText [] "x y - z^n" = env.unregistered.readText values "x y - z^n" := by
  intro bindings env
  have hnames : ∀ entry ∈ env.settings.bindings, env.functions.contains entry.1 = false := by
    decide +kernel
  have hvalue : (env.unregistered.substitutionsOf env.settings.registered).isOk = true := by
    decide +kernel
  have hread : (env.readText [] "x y - z^n").isOk = true := by decide +kernel
  refine ⟨rfl, hnames, ?_⟩
  cases hvalues : env.unregistered.substitutionsOf env.settings.registered with
  | error fault => simp [hvalues, Except.isOk, Except.toBool] at hvalue
  | ok values =>
      refine ⟨values, rfl, ?_, (readText_registered rfl hnames hvalues).1 _⟩
      cases hnode : env.readText [] "x y - z^n" with
      | error fault => simp [hnode, Except.isOk, Except.toBool] at hread
      | ok node => exact ⟨node, rfl⟩

end Environment

end ExactAlgebra
