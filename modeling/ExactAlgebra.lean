import ExactAlgebra.Arithmetic
import ExactAlgebra.Configuration.Document
import ExactAlgebra.Configuration.Interpolation
import ExactAlgebra.Configuration.Search
import ExactAlgebra.Configuration.SettingsFile
import ExactAlgebra.Coverage
import ExactAlgebra.Environment
import ExactAlgebra.Expr.Basic
import ExactAlgebra.Expr.Identity
import ExactAlgebra.Expr.Key
import ExactAlgebra.Expr.Terms
import ExactAlgebra.Expr.Writer
import ExactAlgebra.Fault
import ExactAlgebra.Function.Approximation
import ExactAlgebra.Function.Table
import ExactAlgebra.Mixed
import ExactAlgebra.Mode
import ExactAlgebra.Number.Double
import ExactAlgebra.Number.Factor
import ExactAlgebra.Number.Numeral
import ExactAlgebra.Number.Ratio
import ExactAlgebra.Number.Root
import ExactAlgebra.Number.Scientific
import ExactAlgebra.Number.Strict
import ExactAlgebra.Operator
import ExactAlgebra.Proofs.Canonical.Arithmetic
import ExactAlgebra.Proofs.Canonical.Basic
import ExactAlgebra.Proofs.Canonical.Closure
import ExactAlgebra.Proofs.Canonical.Coefficient
import ExactAlgebra.Proofs.Canonical.Conserved
import ExactAlgebra.Proofs.Canonical.Digest
import ExactAlgebra.Proofs.Canonical.ExponentLaw
import ExactAlgebra.Proofs.Canonical.Exponents
import ExactAlgebra.Proofs.Canonical.Factors
import ExactAlgebra.Proofs.Canonical.Plain
import ExactAlgebra.Proofs.Canonical.Product
import ExactAlgebra.Proofs.Canonical.Radical
import ExactAlgebra.Proofs.Canonical.RootProduct
import ExactAlgebra.Proofs.Canonical.Scale
import ExactAlgebra.Proofs.Canonical.Separate
import ExactAlgebra.Proofs.Canonical.Signature
import ExactAlgebra.Proofs.Canonical.Sum
import ExactAlgebra.Proofs.Canonical.Unique
import ExactAlgebra.Proofs.Depth.Constant
import ExactAlgebra.Proofs.Depth.Expand
import ExactAlgebra.Proofs.Depth.Merge
import ExactAlgebra.Proofs.Depth.Operations
import ExactAlgebra.Proofs.Depth.Potential
import ExactAlgebra.Proofs.Depth.Power
import ExactAlgebra.Proofs.Depth.Product
import ExactAlgebra.Proofs.Depth.Settles
import ExactAlgebra.Proofs.Depth.Stable
import ExactAlgebra.Proofs.Depth.Total
import ExactAlgebra.Proofs.Expr.Identity
import ExactAlgebra.Proofs.Expr.Key
import ExactAlgebra.Proofs.Expr.Linear
import ExactAlgebra.Proofs.Expr.Rearranged
import ExactAlgebra.Proofs.Expr.Slots
import ExactAlgebra.Proofs.Function.ExactCall
import ExactAlgebra.Proofs.Function.History
import ExactAlgebra.Proofs.Function.Logarithm
import ExactAlgebra.Proofs.Function.Rounding
import ExactAlgebra.Proofs.Number.Carry
import ExactAlgebra.Proofs.Number.CommonDivisor
import ExactAlgebra.Proofs.Number.ExactRoot
import ExactAlgebra.Proofs.Number.Exponents
import ExactAlgebra.Proofs.Number.Factor
import ExactAlgebra.Proofs.Number.Nested
import ExactAlgebra.Proofs.Number.Newton
import ExactAlgebra.Proofs.Number.PerfectPower
import ExactAlgebra.Proofs.Number.PrimeFactors
import ExactAlgebra.Proofs.Number.Root
import ExactAlgebra.Proofs.Number.RootPower
import ExactAlgebra.Proofs.Number.Surd
import ExactAlgebra.Proofs.Reading.Appearance
import ExactAlgebra.Proofs.Reading.Convert
import ExactAlgebra.Proofs.Reading.Denoted
import ExactAlgebra.Proofs.Reading.Derivation
import ExactAlgebra.Proofs.Reading.Graft
import ExactAlgebra.Proofs.Reading.Inline
import ExactAlgebra.Proofs.Reading.Registered
import ExactAlgebra.Proofs.Reading.Replay
import ExactAlgebra.Proofs.Reading.RoundTrip
import ExactAlgebra.Proofs.Reading.Seams
import ExactAlgebra.Proofs.Reading.Separation
import ExactAlgebra.Proofs.Reading.Substitution
import ExactAlgebra.Proofs.Reading.Suppressed
import ExactAlgebra.Proofs.Settings.Update
import ExactAlgebra.Proofs.Value.Expand
import ExactAlgebra.Proofs.Value.Formal
import ExactAlgebra.Proofs.Value.Grouping
import ExactAlgebra.Proofs.Value.Insertion
import ExactAlgebra.Proofs.Value.Interpretation
import ExactAlgebra.Proofs.Value.Polynomial
import ExactAlgebra.Proofs.Value.Power
import ExactAlgebra.Proofs.Value.Product
import ExactAlgebra.Proofs.Value.Rational
import ExactAlgebra.Proofs.Value.Repeated
import ExactAlgebra.Proofs.Value.Root
import ExactAlgebra.Proofs.Value.RootPower
import ExactAlgebra.Proofs.Value.Steady
import ExactAlgebra.Proofs.Value.SteadyFactor
import ExactAlgebra.Proofs.Value.SumPower
import ExactAlgebra.Proofs.Value.SumRoot
import ExactAlgebra.Proofs.Value.SumRootPower
import ExactAlgebra.Proofs.Value.SumRootProduct
import ExactAlgebra.Proofs.Value.Tree
import ExactAlgebra.Proofs.Value.ZeroDivision
import ExactAlgebra.Reading.Postfix
import ExactAlgebra.Reading.Token
import ExactAlgebra.Reduce.Product
import ExactAlgebra.Reduce.Radical
import ExactAlgebra.Reduce.Sum
import ExactAlgebra.Registry
import ExactAlgebra.Report
import ExactAlgebra.Scopes
import ExactAlgebra.Settings
import ExactAlgebra.Text.Blank
import ExactAlgebra.Text.Digest
import ExactAlgebra.Text.Digit
import ExactAlgebra.Text.Identifier
import ExactAlgebra.Text.Printable
import ExactAlgebra.Text.Quoted
import ExactAlgebra.Text.Ranges
import ExactAlgebra.Value
