import PolyIdeal.Basis.Buchberger
import PolyIdeal.Basis.Completion
import PolyIdeal.Basis.Groebner
import PolyIdeal.Basis.IdealResidue
import PolyIdeal.Basis.SPolynomial
import PolyIdeal.Basis.Settlement
import PolyIdeal.Builder.Basic
import PolyIdeal.Builder.Cursor
import PolyIdeal.Coefficient.Basic
import PolyIdeal.Coefficient.BinaryReal
import PolyIdeal.Coefficient.Decimal
import PolyIdeal.Coefficient.Domain
import PolyIdeal.Coefficient.Reader
import PolyIdeal.Coefficient.Residue
import PolyIdeal.Coefficient.Scalar
import PolyIdeal.Euclid.AnyRing
import PolyIdeal.Euclid.Congruence
import PolyIdeal.Euclid.Gcd
import PolyIdeal.Euclid.ResidueClass
import PolyIdeal.Euclid.Ring
import PolyIdeal.Exchange.SparseRing
import PolyIdeal.Exchange.Tokens
import PolyIdeal.Failure
import PolyIdeal.Monomial.Basic
import PolyIdeal.Monomial.Dickson
import PolyIdeal.Monomial.Printer
import PolyIdeal.Multinomial.Arithmetic
import PolyIdeal.Multinomial.Basic
import PolyIdeal.Order.Basic
import PolyIdeal.Order.Induced
import PolyIdeal.Order.Insertion
import PolyIdeal.Order.WellFounded
import PolyIdeal.Polynomial.Basic
import PolyIdeal.Polynomial.Conversion
import PolyIdeal.Polynomial.Leading
import PolyIdeal.Proofs.Basis.Alike
import PolyIdeal.Proofs.Basis.Autoreduction
import PolyIdeal.Proofs.Basis.Buchberger
import PolyIdeal.Proofs.Basis.Cancellation
import PolyIdeal.Proofs.Basis.Canonical
import PolyIdeal.Proofs.Basis.Completion
import PolyIdeal.Proofs.Basis.Constant
import PolyIdeal.Proofs.Basis.Coset
import PolyIdeal.Proofs.Basis.Elimination
import PolyIdeal.Proofs.Basis.Groebner
import PolyIdeal.Proofs.Basis.IdealResidue
import PolyIdeal.Proofs.Basis.Integers
import PolyIdeal.Proofs.Basis.Interreduction
import PolyIdeal.Proofs.Basis.Join
import PolyIdeal.Proofs.Basis.LoopInvariant
import PolyIdeal.Proofs.Basis.Membership
import PolyIdeal.Proofs.Basis.Normalization
import PolyIdeal.Proofs.Basis.OneVariable
import PolyIdeal.Proofs.Basis.ProductCriterion
import PolyIdeal.Proofs.Basis.Reduced
import PolyIdeal.Proofs.Basis.RelatedLists
import PolyIdeal.Proofs.Basis.Renaming
import PolyIdeal.Proofs.Basis.Rescan
import PolyIdeal.Proofs.Basis.SPolynomial
import PolyIdeal.Proofs.Basis.SameIdeal
import PolyIdeal.Proofs.Basis.Scan
import PolyIdeal.Proofs.Basis.Settlement
import PolyIdeal.Proofs.Basis.Termination
import PolyIdeal.Proofs.Basis.Truncation
import PolyIdeal.Proofs.Basis.Twins
import PolyIdeal.Proofs.Builder.Atomicity
import PolyIdeal.Proofs.Builder.Build
import PolyIdeal.Proofs.Builder.Iteration
import PolyIdeal.Proofs.Builder.Replay
import PolyIdeal.Proofs.Coefficient.Exact
import PolyIdeal.Proofs.Coefficient.FieldDomain
import PolyIdeal.Proofs.Coefficient.Integer
import PolyIdeal.Proofs.Euclid.Congruence
import PolyIdeal.Proofs.Euclid.Gcd
import PolyIdeal.Proofs.Euclid.Lawful
import PolyIdeal.Proofs.Euclid.ResidueClass
import PolyIdeal.Proofs.Exchange.SparseRing
import PolyIdeal.Proofs.Exchange.Tokens
import PolyIdeal.Proofs.Ideal.BoundedSpan
import PolyIdeal.Proofs.Ideal.CoprimePairs
import PolyIdeal.Proofs.Ideal.Criterion
import PolyIdeal.Proofs.Ideal.FirstMultiple
import PolyIdeal.Proofs.Ideal.NormalForm
import PolyIdeal.Proofs.Ideal.ReducedBasis
import PolyIdeal.Proofs.Ideal.Renaming
import PolyIdeal.Proofs.Ideal.StrongBasis
import PolyIdeal.Proofs.Loop
import PolyIdeal.Proofs.Monomial.Exponents
import PolyIdeal.Proofs.Multinomial.Coefficients
import PolyIdeal.Proofs.Multinomial.Dense
import PolyIdeal.Proofs.Order.Admissible
import PolyIdeal.Proofs.Order.Comparison
import PolyIdeal.Proofs.Order.Descending
import PolyIdeal.Proofs.Order.Induced
import PolyIdeal.Proofs.Order.Insertion
import PolyIdeal.Proofs.Polynomial.Alike
import PolyIdeal.Proofs.Polynomial.Arithmetic
import PolyIdeal.Proofs.Polynomial.Chop
import PolyIdeal.Proofs.Polynomial.Conversion
import PolyIdeal.Proofs.Polynomial.Denotation
import PolyIdeal.Proofs.Polynomial.DomainChange
import PolyIdeal.Proofs.Polynomial.Evaluation
import PolyIdeal.Proofs.Polynomial.EvaluationHom
import PolyIdeal.Proofs.Polynomial.Form
import PolyIdeal.Proofs.Polynomial.Leading
import PolyIdeal.Proofs.Polynomial.Power
import PolyIdeal.Proofs.Polynomial.Product
import PolyIdeal.Proofs.Polynomial.Renaming
import PolyIdeal.Proofs.Polynomial.Storage
import PolyIdeal.Proofs.Random.Ideal
import PolyIdeal.Proofs.Random.StarsAndBars
import PolyIdeal.Proofs.Reduction.Alike
import PolyIdeal.Proofs.Reduction.Descent
import PolyIdeal.Proofs.Reduction.FirstDivisor
import PolyIdeal.Proofs.Reduction.Linear
import PolyIdeal.Proofs.Reduction.Loop
import PolyIdeal.Proofs.Reduction.Misfit
import PolyIdeal.Proofs.Reduction.NormalForm
import PolyIdeal.Proofs.Reduction.OneVariable
import PolyIdeal.Proofs.Reduction.Renaming
import PolyIdeal.Proofs.Reduction.Step
import PolyIdeal.Proofs.Reduction.Tolerance
import PolyIdeal.Proofs.SameOutcome
import PolyIdeal.Proofs.Tensor.Region
import PolyIdeal.Proofs.Terms
import PolyIdeal.Proofs.Timing.Attribution
import PolyIdeal.Proofs.Traced
import PolyIdeal.Proofs.Univariate.Antiderivative
import PolyIdeal.Proofs.Univariate.Coefficients
import PolyIdeal.Proofs.Univariate.Derivative
import PolyIdeal.Proofs.Univariate.Division
import PolyIdeal.Proofs.Univariate.Horner
import PolyIdeal.Proofs.Univariate.Karatsuba
import PolyIdeal.Proofs.Value.Equality
import PolyIdeal.Proofs.Value.Euclid
import PolyIdeal.Proofs.Value.IdealResidue
import PolyIdeal.Proofs.Value.InducedOrder
import PolyIdeal.Proofs.Value.NamedOrder
import PolyIdeal.Proofs.Value.OneDomain
import PolyIdeal.Proofs.Value.Refusals
import PolyIdeal.Proofs.Value.Representation
import PolyIdeal.Proofs.Value.ResidueClass
import PolyIdeal.Random.Distribution
import PolyIdeal.Random.Ideal
import PolyIdeal.Random.Source
import PolyIdeal.Random.Twister
import PolyIdeal.Reduction.Event
import PolyIdeal.Reduction.Reducer
import PolyIdeal.Tensor
import PolyIdeal.Text.Basic
import PolyIdeal.Text.Numeral
import PolyIdeal.Text.Unprintable
import PolyIdeal.Timing.Clock
import PolyIdeal.Timing.Histogram
import PolyIdeal.Traced
import PolyIdeal.Univariate.Basic
import PolyIdeal.Univariate.Calculus
import PolyIdeal.Univariate.Division
import PolyIdeal.Univariate.Product
import PolyIdeal.Value.AnyPolynomial
import PolyIdeal.Value.Basic
import PolyIdeal.Value.Basis
import PolyIdeal.Value.Builder
import PolyIdeal.Value.Equality
import PolyIdeal.Value.Euclid
import PolyIdeal.Value.Evaluation
import PolyIdeal.Value.IdealResidue
import PolyIdeal.Value.Leading
import PolyIdeal.Value.NestedList
import PolyIdeal.Value.Note
import PolyIdeal.Value.Operators
import PolyIdeal.Value.Reduction
import PolyIdeal.Value.RingElement
import PolyIdeal.Value.Timing
