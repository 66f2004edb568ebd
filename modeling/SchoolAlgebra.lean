import SchoolAlgebra.Number.Fault
import SchoolAlgebra.Number.Fraction.Text
import SchoolAlgebra.Polynomial.Value
import SchoolAlgebra.Answer.Comparison
import SchoolAlgebra.Proofs.Expr.ExactValue
import SchoolAlgebra.Proofs.Expr.RoundTrip
import SchoolAlgebra.Proofs.Grammar.Spelling
import SchoolAlgebra.Proofs.Number.ResultKind
import SchoolAlgebra.Proofs.Number.PowerLimits
import SchoolAlgebra.Proofs.Polynomial.Evaluation
import SchoolAlgebra.Proofs.Polynomial.Identity
import SchoolAlgebra.Proofs.CommutativeForm.Rearrangement
import SchoolAlgebra.Proofs.CommutativeForm.Interpretation
import SchoolAlgebra.Proofs.Answer.Reordering
import SchoolAlgebra.Proofs.Expr.NestingLimit
import SchoolAlgebra.Proofs.Expr.StrictReading
import SchoolAlgebra.Proofs.Grammar.Precedence
import SchoolAlgebra.Proofs.Expr.Respelling
import SchoolAlgebra.Proofs.Polynomial.MonomialOrder
import SchoolAlgebra.Proofs.Polynomial.Canonical
import SchoolAlgebra.Proofs.Polynomial.DivisionSteps
import SchoolAlgebra.Proofs.Polynomial.Simplified
import SchoolAlgebra.Proofs.Polynomial.CanonicalForm
import SchoolAlgebra.Proofs.Polynomial.RingOperations
import SchoolAlgebra.Proofs.Polynomial.Divisibility
import SchoolAlgebra.Proofs.Polynomial.Roots
import SchoolAlgebra.Proofs.Polynomial.Rebuilding
import SchoolAlgebra.Proofs.Polynomial.ReadBack
import SchoolAlgebra.Proofs.Number.Fraction.MixedNumber
import SchoolAlgebra.Proofs.Number.Fraction.Written
import SchoolAlgebra.Proofs.Number.Fraction.RoundTrip
import SchoolAlgebra.Proofs.Number.ValueOrder
import SchoolAlgebra.Proofs.CommutativeForm.TotalOrder
import SchoolAlgebra.Proofs.CommutativeForm.Shape
import SchoolAlgebra.Proofs.Answer.EquationSymmetry
import SchoolAlgebra.Proofs.Grammar.Leaves
import SchoolAlgebra.Proofs.Expr.StrictValue
import SchoolAlgebra.Proofs.Answer.EquationMultiples
import SchoolAlgebra.Proofs.Expr.DisallowedLetters
import SchoolAlgebra.Proofs.Expr.Rereading
import SchoolAlgebra.Proofs.Token.Spans
import SchoolAlgebra.Proofs.Polynomial.TermOrder
import SchoolAlgebra.Proofs.Expr.EquationSides
