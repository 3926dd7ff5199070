import ExactAlgebra.Proofs.Canonical.Arithmetic
import ExactAlgebra.Proofs.Canonical.Identity
import ExactAlgebra.Proofs.Canonical.Separate
import ExactAlgebra.Proofs.Reading.Scan

/-!
# Readable expressions

The expressions that texts denote are canonical, and keep to a discipline that makes their
written form readable: names are tokens, no call could be evaluated further, the constant
bases of exponentials are reduced, and the radicals of a product are separate.
-/

namespace ExactAlgebra

open ExactAlgebra.Expr Reduce Phrase Token

/-! ## Calls -/

/-- A call that has no exact result in the standard environment. -/
def IsUnevaluated (name : String) (args : List Expr) : Prop :=
  ∃ arity rule, FunctionTable.standard.get? name = some ⟨arity, .builtIn rule⟩ ∧
    arity.accepts args.length = true ∧ rule.exact .exact args = .ok none

/-! ## The discipline -/

/-- The demands on expressions that can be read back. -/
def Discipline.readable : Discipline where
  constant value := value ≠ 0
  symbol name power := IsName standardAlphabet name ∧
    FunctionTable.standard.contains name = false ∧
    (name = Mode.exact.imaginary → Ratio.isInteger power = true → power = 1)
  call := IsUnevaluated
  exponential base exponent :=
    ∀ value, base = .number value → IsReduced value ∧ constantTerm exponent = 0
  sum _ _ := True
  radicals := IsSeparate

theorem isName_imaginary : IsName standardAlphabet Mode.exact.imaginary :=
  ⟨'i', [], rfl, by decide, rfl⟩

theorem Discipline.readable_admissible : Discipline.readable.Admissible .exact where
  constant _ h := h
  nothing := isSeparate_nil
  sublist hsub h := h.sublist hsub
  symbol h _ hpower := ⟨h.1, h.2.1, hpower⟩
  imaginary := ⟨isName_imaginary, by decide, fun _ _ => rfl⟩
  constantBase _ _ hconstant value hvalue := by
    obtain rfl := Expr.number.inj hvalue
    exact ⟨isReduced_reduceBase _ _, hconstant⟩
  plainBase hplain value hvalue := by
    rw [hvalue] at hplain
    cases hplain
  sum _ := trivial
  form hradicals hform hfactors := isSeparate_form rfl hradicals hform hfactors

end ExactAlgebra
