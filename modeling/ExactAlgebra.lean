import ExactAlgebra.Algebra.Coefficients
import ExactAlgebra.Algebra.Factor
import ExactAlgebra.Algebra.Fraction
import ExactAlgebra.Algebra.PartialFractions
import ExactAlgebra.Algebra.Polynomial
import ExactAlgebra.Algebra.Simplification
import ExactAlgebra.Arithmetic.Product
import ExactAlgebra.Arithmetic.Radical
import ExactAlgebra.Arithmetic.Sum
import ExactAlgebra.Binary64.Exact
import ExactAlgebra.Binary64.Shortest
import ExactAlgebra.Binary64.Significant
import ExactAlgebra.Builtin.Call
import ExactAlgebra.Builtin.Elementary
import ExactAlgebra.Builtin.Spec
import ExactAlgebra.Calculus.Definite
import ExactAlgebra.Calculus.Derivative
import ExactAlgebra.Calculus.Integral
import ExactAlgebra.Calculus.Limit
import ExactAlgebra.CommandLine.Dispatch
import ExactAlgebra.CommandLine.Options
import ExactAlgebra.CommandLine.Shell
import ExactAlgebra.Datum.Basic
import ExactAlgebra.Datum.Json
import ExactAlgebra.Deadline
import ExactAlgebra.Engine.Basic
import ExactAlgebra.Engine.Expansion
import ExactAlgebra.Engine.Substitution
import ExactAlgebra.Expr.Basic
import ExactAlgebra.Expr.Layout
import ExactAlgebra.Fault
import ExactAlgebra.Laplace.Forward
import ExactAlgebra.Laplace.Inverse
import ExactAlgebra.Log.Line
import ExactAlgebra.Log.Template
import ExactAlgebra.Main
import ExactAlgebra.Numeric.Formula
import ExactAlgebra.Numeric.PolynomialRoots
import ExactAlgebra.Numeric.Quantity
import ExactAlgebra.Numeric.Search
import ExactAlgebra.Numeric.Special
import ExactAlgebra.Poly.Basic
import ExactAlgebra.Poly.Division
import ExactAlgebra.Poly.Elimination
import ExactAlgebra.Poly.Factorization
import ExactAlgebra.Poly.Roots
import ExactAlgebra.Poly.Steps
import ExactAlgebra.Rational.Approximation
import ExactAlgebra.Rational.Basic
import ExactAlgebra.Rational.Decimal
import ExactAlgebra.Rational.Literal
import ExactAlgebra.Rational.Operand
import ExactAlgebra.Reader.Lexeme
import ExactAlgebra.Reader.Normalization
import ExactAlgebra.Reader.Operator
import ExactAlgebra.Reader.Program
import ExactAlgebra.Reader.Token
import ExactAlgebra.Session.Answer
import ExactAlgebra.Session.Basic
import ExactAlgebra.Session.Evaluation
import ExactAlgebra.Session.Registration
import ExactAlgebra.Settings
import ExactAlgebra.Solve.Equation
import ExactAlgebra.Solve.Isolation
import ExactAlgebra.Solve.Polynomial
import ExactAlgebra.Solve.System
import ExactAlgebra.Table
import ExactAlgebra.Text.Blank
import ExactAlgebra.Text.Digit
import ExactAlgebra.Text.Edit
import ExactAlgebra.Text.Integer
import ExactAlgebra.Text.Letter
import ExactAlgebra.Text.Printable
import ExactAlgebra.Text.Quoted
import ExactAlgebra.Text.Ranges
import ExactAlgebra.Value
import ExactAlgebra.Value.Arithmetic
import ExactAlgebra.Proofs.Content
import ExactAlgebra.Proofs.Ranking
import ExactAlgebra.Proofs.WellFormed
import ExactAlgebra.Proofs.Addition
import ExactAlgebra.Proofs.Decimal
import ExactAlgebra.Proofs.Radical
import ExactAlgebra.Proofs.Multiplication
import ExactAlgebra.Proofs.Computation
import ExactAlgebra.Proofs.NormalForm
import ExactAlgebra.Proofs.AdditionValue
import ExactAlgebra.Proofs.MultiplicationValue
import ExactAlgebra.Proofs.RationalFunctions
import ExactAlgebra.Proofs.Denotation
import ExactAlgebra.Proofs.Expansion
import ExactAlgebra.Proofs.AdditionOrder
import ExactAlgebra.Proofs.Arithmetic
import ExactAlgebra.Proofs.RoundTrip
import ExactAlgebra.Proofs.SumText
import ExactAlgebra.Proofs.ComplexValue
import ExactAlgebra.Proofs.ExactRoots
import ExactAlgebra.Proofs.RationalField
import ExactAlgebra.Proofs.Agreement
import ExactAlgebra.Proofs.CircleRoots
import ExactAlgebra.Proofs.Collection
import ExactAlgebra.Proofs.EquationRoots
import ExactAlgebra.Proofs.StackSafety
import ExactAlgebra.Proofs.WorkLimit
import ExactAlgebra.Proofs.LinearSystems
import ExactAlgebra.Proofs.Verdicts
import ExactAlgebra.Proofs.Parentheses
import ExactAlgebra.Proofs.Factorization
import ExactAlgebra.Proofs.SquareSystems
import ExactAlgebra.Proofs.PartialFractions
import ExactAlgebra.Proofs.PolynomialTerms
import ExactAlgebra.Proofs.FractionSums
import ExactAlgebra.Proofs.Decomposition
import ExactAlgebra.Proofs.PowerSums
import ExactAlgebra.Proofs.PowerFractions
import ExactAlgebra.Proofs.LaplaceInversion
import ExactAlgebra.Proofs.DeadlineRuns
import ExactAlgebra.Proofs.ScopedSettings
import ExactAlgebra.Proofs.Composition
import ExactAlgebra.Proofs.RealValue
import ExactAlgebra.Proofs.SmoothArithmetic
import ExactAlgebra.Proofs.Slopes
import ExactAlgebra.Proofs.Differentiation
import ExactAlgebra.Proofs.HigherDerivatives
import ExactAlgebra.Proofs.RootPowers
import ExactAlgebra.Proofs.Surds
import ExactAlgebra.Proofs.TwoTermRoots
import ExactAlgebra.Proofs.PolynomialsInOne
import ExactAlgebra.Proofs.Limits
import ExactAlgebra.Proofs.Determinism
import ExactAlgebra.Proofs.ReliableAlgebra
import ExactAlgebra.Proofs.PolynomialRing
import ExactAlgebra.Proofs.BestApproximation
import ExactAlgebra.Proofs.DecimalRounding
import ExactAlgebra.Proofs.PowerBits
import ExactAlgebra.Proofs.ReliableDerivative
import ExactAlgebra.Proofs.ReliableIntegral
import ExactAlgebra.Proofs.ReliableTransform
import ExactAlgebra.Proofs.ReliableSearch
import ExactAlgebra.Proofs.ReliableSolving
import ExactAlgebra.Proofs.ReliableCalls
import ExactAlgebra.Proofs.Homogeneity
import ExactAlgebra.Proofs.LaplaceLinearity
import ExactAlgebra.Proofs.SquareFreeParts
import ExactAlgebra.Proofs.RootSearch
import ExactAlgebra.Proofs.PrimitiveFactors
import ExactAlgebra.Proofs.CommonMultiples
import ExactAlgebra.Proofs.CoefficientLists
import ExactAlgebra.Proofs.ProductFactors
import ExactAlgebra.Proofs.ExpansionValue
import ExactAlgebra.Proofs.FlatFractions
import ExactAlgebra.Proofs.CommonDenominators
import ExactAlgebra.Proofs.CommonFactors
import ExactAlgebra.Proofs.Factoring
import ExactAlgebra.Proofs.Brackets
import ExactAlgebra.Proofs.ShortestForm
import ExactAlgebra.Proofs.CoefficientParts
import ExactAlgebra.Proofs.PolynomialViews
import ExactAlgebra.Proofs.RootExtraction
import ExactAlgebra.Proofs.ExactSines
import ExactAlgebra.Proofs.CanonicalForm
import ExactAlgebra.Proofs.ProductOrder
import ExactAlgebra.Proofs.Bindings
import ExactAlgebra.Proofs.PolynomialIntegrals
import ExactAlgebra.Proofs.SimplifiedPolynomials
import ExactAlgebra.Proofs.MultiplicationSigns
